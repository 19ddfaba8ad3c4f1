import GrammarEngine.Proofs.Automaton.Emitters
import GrammarEngine.Proofs.Lexer.Matches

/-!
# Compiled rules find the matches of their expressions

The program of a rule accepts a word with the number of an alternative exactly if the word is one of
the alternative. By what is known of the search, a rule then finds its longest match, or its
shortest one if a repetition in it prefers fewer matches.

A reference is inlined only below rules that are not being inlined yet, and an emitter for it means
the same at every depth. So the depth is what inlining is followed by.
-/
namespace GrammarEngine.Automaton

open LexerCode

variable {α : Type} {table : Table}

/-! ## Characters and sets of them -/

theorem charInstruction_eq (c : Char) : charInstruction false c = .char c.val := by
  simp [charInstruction]

theorem reads_charInstruction {c d : Char} :
    reads d (charInstruction false c) = true ↔ c = d := by
  have hchar : reads d (.char c.val) = (c.val == d.val) := rfl
  rw [charInstruction_eq, hchar, beq_iff_eq]
  constructor
  · intro h
    exact Char.ext h
  · intro h
    rw [h]

theorem inRanges_iff {c : UInt32} {ranges : List CharRanges.Range} :
    inRanges c ranges = true ↔ CharRanges.Contains ranges c := by
  simp [inRanges, CharRanges.Contains]

theorem reads_setInstruction {c : Char} {ranges : List CharRanges.Range} {negated : Bool} :
    reads c (setInstruction false ranges negated) = true ↔
      (CharRanges.Contains ranges c.val ↔ negated = false) := by
  have hset : reads c (setInstruction false ranges negated) =
      (inRanges c.val (CharRanges.normalize ranges) != negated) := rfl
  rw [hset, ← CharRanges.contains_normalize, ← inRanges_iff, bne_iff_ne]
  cases inRanges c.val (CharRanges.normalize ranges) <;> cases negated <;> simp

theorem means_literal (text : List Char) :
    Means (emit (text.map (charInstruction false))) (· = text) False := by
  have honly : ∀ i ∈ text.map (charInstruction false), OnlyReads i := by
    intro i hi
    obtain ⟨c, _, hc⟩ := List.mem_map.mp hi
    rw [← hc, charInstruction_eq]
    exact ⟨rfl, rfl⟩
  refine (means_emit honly).congr (fun w => ?_) Iff.rfl
  simp only [List.forall₂_map_left_iff, reads_charInstruction]
  rw [List.forall₂_eq_eq_eq]
  exact eq_comm

theorem means_single {i : Instruction} (hi : OnlyReads i) :
    Means (emit [i]) (fun w => ∃ c, w = [c] ∧ reads c i = true) False := by
  have honly : ∀ j ∈ [i], OnlyReads j := by
    intro j hj
    rw [List.mem_singleton.mp hj]
    exact hi
  refine (means_emit honly).congr (fun w => ?_) Iff.rfl
  rw [List.forall₂_cons_left_iff]
  constructor
  · intro ⟨c, rest, hreads, hrest, hw⟩
    rw [List.forall₂_nil_left_iff.mp hrest] at hw
    exact ⟨c, hw, hreads⟩
  · intro ⟨c, hw, hreads⟩
    exact ⟨c, [], hreads, .nil, hw⟩

/-! ## Expressions -/

theorem emitters_eq_map {ignoreCase : Bool} {inline : Inliner} (items : List UnitExpr) :
    emitters ignoreCase inline items = items.map (emitter ignoreCase inline) := by
  induction items with
  | nil => rfl
  | cons e rest ih => rw [emitters, ih, List.map_cons]

/-- References are replaced by code for the rules that they name. -/
def Inlines (table : Table) (inline : Inliner) : Prop :=
  ∀ name p, Offering table (.ref name p) →
    Means (inline name p) (Words table (.ref name p)) (HasLazy table (.ref name p))

variable {inline : Inliner}

mutual
theorem emitter_means (hinline : Inlines table inline) : ∀ e : UnitExpr, Offering table e →
    Means (emitter false inline e) (Words table e) (HasLazy table e)
  | .empty, _ =>
      means_skip.congr (fun w => words_empty_iff.symm) (iff_of_false id fun ⟨_, _, h⟩ => nomatch h)
  | .seq items, h => by
      have hitems := emitters_mean hinline items h.item
      rw [emitter, emitters_eq_map]
      exact (means_sequence hitems).congr (fun w => words_seq_iff.symm) hasLazy_seq_iff.symm
  | .choice items, h => by
      have hitems := emitters_mean hinline items h.alternative
      have hne : items ≠ [] := h _ .self
      rw [emitter, emitters_eq_map]
      exact (means_alternation hne hitems).congr (fun w => words_choice_iff.symm)
        hasLazy_choice_iff.symm
  | .repeated kind isLazy body, h => by
      have hbody := emitter_means hinline body h.body
      rw [emitter]
      exact (means_markLazy (means_repetition hbody kind) isLazy).congr
        (fun w => words_repeated_iff.symm) hasLazy_repeated_iff.symm
  | .literal text p, _ =>
      (means_literal text.toList).congr (fun w => words_literal_iff.symm)
        (iff_of_false id fun ⟨_, _, h⟩ => nomatch h)
  | .ranges ranges negated, _ => by
      refine (means_single ⟨rfl, rfl⟩).congr (fun w => ?_)
        (iff_of_false id fun ⟨_, _, h⟩ => nomatch h)
      simp only [reads_setInstruction, words_ranges_iff]
  | .any, _ => by
      have hany : ∀ c, reads c .any = true := fun _ => rfl
      refine (means_single ⟨rfl, rfl⟩).congr (fun w => ?_)
        (iff_of_false id fun ⟨_, _, h⟩ => nomatch h)
      simp only [hany, and_true, words_any_iff]
  | .ref name p, h => hinline name p h
  | .token _ p, _ => means_refuse p _
  | .notTokens _ p, _ => means_refuse p _
  | .invoke _ _ p, _ => means_refuse p _
  | .eof, _ => means_refuse _ _

theorem emitters_mean (hinline : Inlines table inline) : ∀ items : List UnitExpr,
    (∀ item ∈ items, Offering table item) →
    ∀ item ∈ items, Means (emitter false inline item) (Words table item) (HasLazy table item)
  | [], _, _, hitem => absurd hitem List.not_mem_nil
  | e :: rest, h, item, hitem => by
      rcases List.mem_cons.mp hitem with heq | hitem
      · rw [heq]
        exact emitter_means hinline e (h e List.mem_cons_self)
      · exact emitters_mean hinline rest (fun e he => h e (List.mem_cons_of_mem _ he)) item hitem
end

theorem means_items (hinline : Inlines table inline) {items : List UnitExpr}
    (h : ∀ item ∈ items, Offering table item) :
    Means (sequence (emitters false inline items)) (Sequenced (Words table) items)
      (∃ item ∈ items, HasLazy table item) := by
  rw [emitters_eq_map]
  exact means_sequence (emitters_mean hinline items h)

theorem inlineAt_inlines (bound : Nat) (active : List String) :
    Inlines table (inlineAt false table bound active) := by
  induction bound generalizing active with
  | zero => exact fun name p _ => means_refuse p _
  | succ bound ih =>
      intro name p h
      rw [inlineAt]
      by_cases hactive : active.contains name = true
      · rw [if_pos hactive]
        exact means_refuse p _
      · rw [if_neg hactive]
        cases hlookup : table.lookup name with
        | none => exact means_refuse p _
        | some alternatives =>
            have hne : alternatives ≠ [] := by
              intro hnil
              rw [hnil] at hlookup
              exact h _ .self hlookup
            have hitems := fun items hitems =>
              means_items (ih (name :: active)) (h.named hlookup items hitems)
            exact (means_alternation hne hitems).congr (fun w => (words_ref_iff hlookup).symm)
              (hasLazy_ref_iff hlookup).symm

/-! ## Alternatives of a rule -/

/-- An alternative has a word; alternatives are counted from a number. -/
def Reports (P : α → List Char → Prop) (xs : List α) (index : Nat) (w : List Char) (a : Nat) :
    Prop :=
  ∃ k x, xs[k]? = some x ∧ a = index + k ∧ P x w

theorem reports_cons_iff {P : α → List Char → Prop} {x : α} {xs : List α} {index a : Nat}
    {w : List Char} : Reports P (x :: xs) index w a ↔
      (P x w ∧ a = index) ∨ Reports P xs (index + 1) w a := by
  constructor
  · intro ⟨k, y, hy, ha, hw⟩
    cases k with
    | zero =>
        obtain rfl := Option.some.inj hy
        exact .inl ⟨hw, ha⟩
    | succ k => exact .inr ⟨k, y, hy, by omega, hw⟩
  · intro h
    rcases h with ⟨hw, ha⟩ | ⟨k, y, hy, ha, hw⟩
    · exact ⟨0, x, rfl, ha, hw⟩
    · exact ⟨k + 1, y, hy, by omega, hw⟩

theorem not_reports_nil {P : α → List Char → Prop} {index a : Nat} {w : List Char} :
    ¬Reports P [] index w a := by
  intro ⟨k, x, hx, _⟩
  exact absurd hx (by simp)

/-- Code that is followed by its report. -/
theorem accepts_reported_iff {code : LexerCode} {pc index a : Nat} {c : Code} {w : List Char}
    {e : Emitter} {L : List Char → Prop} {lazily : Prop} (he : Means e L lazily)
    (hc : e pc = .ok c) (hplaced : Placed code pc c)
    (haccept : Placed code (pc + c.size) (accept index)) (hroom : pc + c.size < 2 ^ 32)
    (hindex : index < 2 ^ 32) : (∃ n, Accepts code n pc w a) ↔ L w ∧ a = index := by
  have hcode := he.realizes pc c hc code hplaced hroom
  have hreport := haccept.get
  constructor
  · intro ⟨n, hpath⟩
    obtain ⟨u, v, m, hw, hu, _, hrest⟩ := hcode.sound n w a hpath
    obtain ⟨_, hv, ha⟩ := (accepts_accept_iff hreport).mp hrest
    rw [hw, hv, List.append_nil, ha, toNat_address hindex]
    exact ⟨hu, rfl⟩
  · intro ⟨hw, ha⟩
    have hend : Accepts code 0 (pc + c.size) [] a := by
      rw [accepts_accept_iff hreport, toNat_address hindex]
      exact ⟨rfl, rfl, ha⟩
    have hpath := hcode.complete w [] a 0 hw hend
    rwa [List.append_nil] at hpath

theorem ruleEmitter_size_pos {e : Emitter} {rest : List Emitter} {index pc : Nat} {c : Code}
    (hc : ruleEmitter index (e :: rest) pc = .ok c) : 0 < c.size := by
  cases rest with
  | nil =>
      obtain ⟨body, -, rfl⟩ := ruleEmitter_singleton_eq_ok.mp hc
      rw [Code.size_append, size_accept]
      omega
  | cons e' rest =>
      obtain ⟨first, -, next, -, others, -, rfl⟩ := ruleEmitter_cons_eq_ok.mp hc
      simp only [Code.size_append, size_split]
      omega

theorem ruleEmitter_accepts {f : α → Emitter} {P : α → List Char → Prop} {Z : α → Prop}
    {xs : List α} (hne : xs ≠ []) (h : ∀ x ∈ xs, Means (f x) (P x) (Z x)) {index pc : Nat}
    {c : Code} (hc : ruleEmitter index (xs.map f) pc = .ok c) (hindex : index ≤ pc)
    {code : LexerCode} (hplaced : Placed code pc c) (hroom : pc + c.size ≤ 2 ^ 32)
    (w : List Char) (a : Nat) : (∃ n, Accepts code n pc w a) ↔ Reports P xs index w a := by
  induction xs generalizing index pc c with
  | nil => exact absurd rfl hne
  | cons x xs ih =>
      have hx := h x List.mem_cons_self
      rw [reports_cons_iff]
      cases xs with
      | nil =>
          obtain ⟨body, hbody, rfl⟩ := ruleEmitter_singleton_eq_ok.mp hc
          rw [Code.size_append, size_accept] at hroom
          obtain ⟨hplaced, haccept⟩ := hplaced.append
          rw [accepts_reported_iff hx hbody hplaced haccept (by omega) (by omega), or_iff_left]
          exact not_reports_nil
      | cons y ys =>
          obtain ⟨first, hfirst, next, hnext, others, hothers, rfl⟩ := ruleEmitter_cons_eq_ok.mp hc
          have hpos := ruleEmitter_size_pos hothers
          obtain ⟨hplaced, hothersPlaced⟩ := hplaced.append
          obtain ⟨hplaced, haccept⟩ := hplaced.append
          obtain ⟨hsplit, hplaced⟩ := hplaced.cons
          simp only [Code.size_append, size_split, size_accept, ← Nat.add_assoc, ← hnext]
            at hroom haccept hothersPlaced
          have hfirstAccepts := accepts_reported_iff (w := w) (a := a) hx hfirst hplaced haccept
            (by omega) (by omega)
          have hothersAccepts := ih (List.cons_ne_nil y ys)
            (fun z hz => h z (List.mem_cons_of_mem x hz)) hothers (by omega) hothersPlaced hroom
          rw [exists_accepts_split_iff hsplit (toNat_address (by omega)) (toNat_address (by omega)),
            hfirstAccepts, hothersAccepts]

theorem ruleEmitter_isLazy {f : α → Emitter} {P : α → List Char → Prop} {Z : α → Prop}
    {xs : List α} (h : ∀ x ∈ xs, Means (f x) (P x) (Z x)) {index pc : Nat} {c : Code}
    (hc : ruleEmitter index (xs.map f) pc = .ok c) : c.isLazy = true ↔ ∃ x ∈ xs, Z x := by
  induction xs generalizing index pc c with
  | nil =>
      cases hc
      simp
  | cons x xs ih =>
      have hx := h x List.mem_cons_self
      cases xs with
      | nil =>
          obtain ⟨body, hbody, rfl⟩ := ruleEmitter_singleton_eq_ok.mp hc
          rw [Code.isLazy_append, isLazy_accept, Bool.or_false, hx.isLazy_iff _ _ hbody]
          simp
      | cons y ys =>
          obtain ⟨first, hfirst, next, hnext, others, hothers, rfl⟩ := ruleEmitter_cons_eq_ok.mp hc
          have hothersLazy := ih (fun z hz => h z (List.mem_cons_of_mem x hz)) hothers
          rw [Code.isLazy_append, Code.isLazy_append, Code.isLazy_append, isLazy_split,
            isLazy_accept, Bool.false_or, Bool.or_false, Bool.or_eq_true,
            hx.isLazy_iff _ _ hfirst, hothersLazy]
          exact (List.exists_mem_cons_iff Z x (y :: ys)).symm

/-! ## Programs of rules -/

variable {name : String} {alternatives : List (List UnitExpr)} {code : Code}

theorem compileRule_isLazy (h : compileRule false table name alternatives = .ok code)
    (hoffering : ∀ items ∈ alternatives, ∀ item ∈ items, Offering table item) :
    code.isLazy = true ↔ ∃ items ∈ alternatives, ∃ item ∈ items, HasLazy table item := by
  have hinline : Inlines table (inlineAt false table (table.length + 1) [name]) :=
    inlineAt_inlines _ _
  exact ruleEmitter_isLazy (fun items hitems => means_items hinline (hoffering items hitems)) h

theorem compileRule_accepts (h : compileRule false table name alternatives = .ok code)
    (hsize : code.size ≤ 2 ^ 32)
    (hoffering : ∀ items ∈ alternatives, ∀ item ∈ items, Offering table item) (w : List Char)
    (a : Nat) : (∃ n, Accepts code.instructions.toArray n 0 w a) ↔
      Reports (Sequenced (Words table)) alternatives 0 w a := by
  have hinline : Inlines table (inlineAt false table (table.length + 1) [name]) :=
    inlineAt_inlines _ _
  have hplaced : Placed code.instructions.toArray 0 code := List.prefix_rfl
  by_cases hne : alternatives = []
  · subst hne
    cases h
    constructor
    · intro ⟨n, hpath⟩
      exact absurd hpath.lt_size (Nat.not_lt_zero 0)
    · intro hreports
      exact absurd hreports not_reports_nil
  · exact ruleEmitter_accepts hne
      (fun items hitems => means_items hinline (hoffering items hitems)) h le_rfl hplaced
      (by omega) w a

/-- An alternative matches a text up to an end, in the characters that are seen. -/
def MatchesUpTo (table : Table) (alternatives : List (List UnitExpr)) (see : Char → Char)
    (text : List Char) (e a : Nat) : Prop :=
  e ≤ text.length ∧ ∃ items, alternatives[a]? = some items ∧
    Sequenced (Words table) items ((text.take e).map see)

theorem ends_compileRule (h : compileRule false table name alternatives = .ok code)
    (hsize : code.size ≤ 2 ^ 32)
    (hoffering : ∀ items ∈ alternatives, ∀ item ∈ items, Offering table item)
    (see : Char → Char) (text : List Char) :
    Ends code.instructions.toArray see (start code.instructions.toArray) 0 text =
      MatchesUpTo table alternatives see text := by
  ext e a
  constructor
  · intro ⟨u, v, htext, he, hawaits⟩
    rw [awaits_start, compileRule_accepts h hsize hoffering] at hawaits
    obtain ⟨k, items, hitems, ha, hwords⟩ := hawaits
    rw [Nat.zero_add] at he ha
    subst ha he htext
    refine ⟨?_, items, hitems, ?_⟩
    · rw [List.length_append]
      omega
    · rwa [List.take_left]
  · intro ⟨he, items, hitems, hwords⟩
    refine ⟨text.take e, text.drop e, (List.take_append_drop e text).symm, ?_, ?_⟩
    · rw [List.length_take]
      omega
    · rw [awaits_start, compileRule_accepts h hsize hoffering]
      exact ⟨a, items, hitems, (Nat.zero_add a).symm, hwords⟩

/-- A compiled rule finds the longest match that its expressions have, or the shortest one that is
not empty if a repetition in it prefers fewer matches; the least alternative counts. Addresses of
instructions are words, and the program must not be longer than these can tell. -/
theorem compiled_match_exact (h : compileRule false table name alternatives = .ok code)
    (hsize : code.size ≤ 2 ^ 32)
    (hoffering : ∀ items ∈ alternatives, ∀ item ∈ items, Offering table item)
    (rule : LexerRule) (see : Char → Char) (input : List Char) (start : Nat) :
    let found := { rule with
      shortest := code.isLazy, code := code.instructions.toArray }.match? see (input.drop start)
    let hasLazy := ∃ items ∈ alternatives, ∃ item ∈ items, HasLazy table item
    (¬hasLazy → Latest (MatchesUpTo table alternatives see (input.drop start)) found) ∧
      (hasLazy → Shortest (MatchesUpTo table alternatives see (input.drop start)) found) := by
  intro found hasLazy
  have hlazy := compileRule_isLazy h hoffering
  have hends := ends_compileRule h hsize hoffering see (input.drop start)
  rw [← hends]
  constructor
  · intro hnone
    have hlongest : ¬code.isLazy = true := fun hcode => hnone (hlazy.mp hcode)
    have hfound : found = longest? code.instructions.toArray see
        (LexerCode.start code.instructions.toArray) 0 (input.drop start) := if_neg hlongest
    rw [hfound]
    exact longest?_latest start_closed 0 (input.drop start)
  · intro hsome
    have hfound : found = shortest? code.instructions.toArray see (input.drop start) :=
      if_pos (hlazy.mpr hsome)
    rw [hfound]
    exact shortest?_shortest (input.drop start)

/-- A quoted text ends at a quote or with the line. Its body reads nothing at times. -/
def quotedTable : Table :=
  [("Close", [[.literal "\"" .unknown], [.literal "\n" .unknown]])]

def quotedAlternatives : List (List UnitExpr) :=
  [[.literal "\"" .unknown, .repeated .zeroOrMore true (.repeated .optional false .any),
    .ref "Close" .unknown]]

def quotedCode : Code where
  instructions := [.char 34, .split 2 5, .split 3 4, .any, .jump 1, .split 6 8, .char 34, .jump 9,
    .char 10, .accept 0]
  isLazy := true

def quotedRule : LexerRule := ⟨"Quoted", 1, 0, true, quotedCode.instructions.toArray, #[[]]⟩

theorem offering_literal (text : String) (p : Position) : Offering table (.literal text p) := by
  intro inner hinner
  cases hinner
  trivial

theorem quotedAlternatives_offering :
    ∀ items ∈ quotedAlternatives, ∀ item ∈ items, Offering quotedTable item := by
  intro items hitems item hitem inner hinner
  rw [List.mem_singleton.mp hitems] at hitem
  simp only [List.mem_cons, List.not_mem_nil, or_false] at hitem
  rcases hitem with rfl | rfl | rfl
  · exact offering_literal _ _ inner hinner
  · rcases hinner with _ | _ | _ | ⟨_, _, _ | _ | _ | ⟨_, _, _ | _⟩⟩ <;> trivial
  · cases hinner with
    | self => exact fun h => absurd (Option.some.inj h) (List.cons_ne_nil _ _)
    | ref _ hlookup hitems hitem h =>
        obtain rfl := Option.some.inj hlookup
        simp only [List.mem_cons, List.not_mem_nil, or_false] at hitems
        rcases hitems with rfl | rfl
        · rw [List.mem_singleton.mp hitem] at h
          exact offering_literal _ _ inner h
        · rw [List.mem_singleton.mp hitem] at h
          exact offering_literal _ _ inner h

theorem quotedAlternatives_hasLazy :
    ∃ items ∈ quotedAlternatives, ∃ item ∈ items, HasLazy quotedTable item :=
  ⟨_, List.mem_cons_self, _, List.mem_cons_of_mem _ List.mem_cons_self, _, _, .self⟩

/-- The first of two quotes ends the text. -/
theorem quoted_match_exact :
    compileRule false quotedTable "Quoted" quotedAlternatives = .ok quotedCode ∧
      quotedCode.size ≤ 2 ^ 32 ∧
      (∀ items ∈ quotedAlternatives, ∀ item ∈ items, Offering quotedTable item) ∧
      quotedRule.match? id ("x\"ab\"c\"".toList.drop 1) = some ⟨4, 0⟩ ∧
      Shortest (MatchesUpTo quotedTable quotedAlternatives id ("x\"ab\"c\"".toList.drop 1))
        (some ⟨4, 0⟩) := by
  have hcode : compileRule false quotedTable "Quoted" quotedAlternatives = .ok quotedCode := rfl
  have hsize : quotedCode.size ≤ 2 ^ 32 := by decide
  have hexact := compiled_match_exact hcode hsize quotedAlternatives_offering quotedRule id
    "x\"ab\"c\"".toList 1
  exact ⟨hcode, hsize, quotedAlternatives_offering, rfl, hexact.2 quotedAlternatives_hasLazy⟩

end GrammarEngine.Automaton
