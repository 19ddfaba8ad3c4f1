import GrammarEngine.Proofs.Checked
import GrammarEngine.Proofs.LeftRecursion.Parts

/-!
# The rewrite keeps the language

Rules derive words of terminals. A plain rule is read as in any context-free grammar, whatever the
precedence; a left-recursive rule is a primary followed by suffixes from the precedence on. The
rules before the rewrite are all plain.

That the rewrite adds no words is seen rule by rule. That it loses none is seen by hoisting: an
operand may not have grown as far as the rule before the rewrite could, but what is missing are
suffixes at its end, and these can follow the whole match instead, where all suffixes are admitted.
-/
namespace GrammarEngine.LeftRecursion

/-- An element that stands for one terminal. -/
def isTerminal : Element → Bool
  | .rule _ | .ruleAt _ _ | .block _ | .repeated .. => false
  | _ => true

/-- The rule of a name; the first one counts. -/
def specOf (specs : List ParserRuleSpec) (name : String) : Option ParserRuleSpec :=
  specs.find? fun s => s.name == name

/-- What derives words: elements in a row, or a rule at a precedence. -/
inductive Goal where
  | items (es : List Element)
  | rule (name : String) (precedence : Nat)

variable {τ : Type}

/-- The words that rules derive, over terminals that elements accept. -/
inductive Derives (accepts : Element → τ → Prop) (specs : List ParserRuleSpec) :
    Goal → List τ → Prop
  | nil : Derives accepts specs (.items []) []
  | terminal {e : Element} {es : List Element} {t : τ} {v : List τ} :
      isTerminal e = true → accepts e t → Derives accepts specs (.items es) v →
      Derives accepts specs (.items (e :: es)) (t :: v)
  | call {name : String} {es : List Element} {u v : List τ} :
      Derives accepts specs (.rule name 0) u → Derives accepts specs (.items es) v →
      Derives accepts specs (.items (.rule name :: es)) (u ++ v)
  | callAt {name : String} {precedence : Nat} {es : List Element} {u v : List τ} :
      Derives accepts specs (.rule name precedence) u → Derives accepts specs (.items es) v →
      Derives accepts specs (.items (.ruleAt name precedence :: es)) (u ++ v)
  | block {alternatives : List Alternative} {a : Alternative} {es : List Element} {u v : List τ} :
      a ∈ alternatives → Derives accepts specs (.items a.elements) u →
      Derives accepts specs (.items es) v →
      Derives accepts specs (.items (.block alternatives :: es)) (u ++ v)
  | skip {e : Element} {kind : Repetition} (greedy : Bool) {es : List Element} {v : List τ} :
      kind ≠ .oneOrMore → Derives accepts specs (.items es) v →
      Derives accepts specs (.items (.repeated e kind greedy :: es)) v
  | once {e : Element} (kind : Repetition) (greedy : Bool) {es : List Element} {u v : List τ} :
      Derives accepts specs (.items [e]) u → Derives accepts specs (.items es) v →
      Derives accepts specs (.items (.repeated e kind greedy :: es)) (u ++ v)
  | again {e : Element} {kind : Repetition} {greedy : Bool} {es : List Element} {u v : List τ} :
      kind ≠ .optional → Derives accepts specs (.items [e]) u →
      Derives accepts specs (.items (.repeated e kind greedy :: es)) v →
      Derives accepts specs (.items (.repeated e kind greedy :: es)) (u ++ v)
  | plain {name name' : String} {alternatives : List Alternative} {a : Alternative} {w : List τ}
      (precedence : Nat) :
      specOf specs name = some (.plain name' alternatives) → a ∈ alternatives →
      Derives accepts specs (.items a.elements) w → Derives accepts specs (.rule name precedence) w
  | primary {name name' : String} {primaries : List Alternative} {suffixes : List SuffixSpec}
      {a : Alternative} {w : List τ} (precedence : Nat) :
      specOf specs name = some (.leftRecursive name' primaries suffixes) → a ∈ primaries →
      Derives accepts specs (.items a.elements) w → Derives accepts specs (.rule name precedence) w
  | suffix {name name' : String} {primaries : List Alternative} {suffixes : List SuffixSpec}
      {s : SuffixSpec} {precedence : Nat} {u v : List τ} :
      specOf specs name = some (.leftRecursive name' primaries suffixes) → s ∈ suffixes →
      precedence ≤ s.precedence → Derives accepts specs (.rule name precedence) u →
      Derives accepts specs (.items s.elements) v →
      Derives accepts specs (.rule name precedence) (u ++ v)

variable {accepts : Element → τ → Prop} {specs : List ParserRuleSpec}

/-! ## Elements in a row -/

theorem Derives.append {es es' : List Element} {u v : List τ}
    (hu : Derives accepts specs (.items es) u) (hv : Derives accepts specs (.items es') v) :
    Derives accepts specs (.items (es ++ es')) (u ++ v) := by
  generalize hgoal : Goal.items es = goal at hu
  induction hu generalizing es with
  | nil =>
      cases hgoal
      exact hv
  | terminal he haccepts _ ih =>
      cases hgoal
      exact .terminal he haccepts (ih rfl)
  | call hrule _ _ ih =>
      cases hgoal
      rw [List.append_assoc]
      exact .call hrule (ih rfl)
  | callAt hrule _ _ ih =>
      cases hgoal
      rw [List.append_assoc]
      exact .callAt hrule (ih rfl)
  | block ha helements _ _ ih =>
      cases hgoal
      rw [List.append_assoc]
      exact .block ha helements (ih rfl)
  | skip greedy hkind _ ih =>
      cases hgoal
      exact .skip greedy hkind (ih rfl)
  | once kind greedy helement _ _ ih =>
      cases hgoal
      rw [List.append_assoc]
      exact .once kind greedy helement (ih rfl)
  | again hkind helement _ _ ih =>
      cases hgoal
      rw [List.append_assoc]
      exact .again hkind helement (ih rfl)
  | plain | primary | suffix => cases hgoal

/-- What elements in a row derive begins with what the first of them derives. -/
theorem Derives.exists_cons {e : Element} {es : List Element} {w : List τ}
    (h : Derives accepts specs (.items (e :: es)) w) :
    ∃ u v, w = u ++ v ∧ Derives accepts specs (.items [e]) u ∧
      Derives accepts specs (.items es) v := by
  generalize hgoal : Goal.items (e :: es) = goal at h
  induction h with
  | nil | plain | primary | suffix => cases hgoal
  | @terminal _ _ t v he haccepts hv =>
      cases hgoal
      exact ⟨[t], v, rfl, .terminal he haccepts .nil, hv⟩
  | @call _ _ u v hu hv =>
      cases hgoal
      exact ⟨u, v, rfl, by simpa using Derives.call hu .nil, hv⟩
  | @callAt _ _ _ u v hu hv =>
      cases hgoal
      exact ⟨u, v, rfl, by simpa using Derives.callAt hu .nil, hv⟩
  | @block _ _ _ u v ha hu hv =>
      cases hgoal
      exact ⟨u, v, rfl, by simpa using Derives.block ha hu .nil, hv⟩
  | @skip _ _ greedy _ v hkind hv =>
      cases hgoal
      exact ⟨[], v, rfl, .skip greedy hkind .nil, hv⟩
  | @once _ kind greedy _ u v hu hv =>
      cases hgoal
      exact ⟨u, v, rfl, by simpa using Derives.once kind greedy hu .nil, hv⟩
  | @again _ _ _ _ u v hkind hu _ _ ih =>
      cases hgoal
      obtain ⟨u', v', rfl, hu', hv'⟩ := ih rfl
      exact ⟨u ++ u', v', (List.append_assoc ..).symm, .again hkind hu hu', hv'⟩

theorem derives_append_iff {es es' : List Element} {w : List τ} :
    Derives accepts specs (.items (es ++ es')) w ↔ ∃ u v, w = u ++ v ∧
      Derives accepts specs (.items es) u ∧ Derives accepts specs (.items es') v := by
  constructor
  · intro h
    induction es generalizing w with
    | nil => exact ⟨[], w, rfl, .nil, h⟩
    | cons e es ih =>
        obtain ⟨u, w', rfl, hu, hw'⟩ := h.exists_cons
        obtain ⟨v, v', rfl, hv, hv'⟩ := ih hw'
        exact ⟨u ++ v, v', (List.append_assoc ..).symm, hu.append hv, hv'⟩
  · rintro ⟨u, v, rfl, hu, hv⟩
    exact hu.append hv

theorem derives_rule_iff {name : String} {w : List τ} :
    Derives accepts specs (.items [.rule name]) w ↔ Derives accepts specs (.rule name 0) w := by
  constructor
  · intro h
    cases h with
    | terminal he => cases he
    | call hu hnil =>
        cases hnil
        rwa [List.append_nil]
  · intro h
    simpa using Derives.call h .nil

theorem derives_ruleAt_iff {name : String} {precedence : Nat} {w : List τ} :
    Derives accepts specs (.items [.ruleAt name precedence]) w ↔
      Derives accepts specs (.rule name precedence) w := by
  constructor
  · intro h
    cases h with
    | terminal he => cases he
    | callAt hu hnil =>
        cases hnil
        rwa [List.append_nil]
  · intro h
    simpa using Derives.callAt h .nil

/-! ## Rules before the rewrite -/

/-- A rule with its alternatives, as it stands before the rewrite. -/
abbrev NamedRule := String × List Alternative

/-- The ordinary reading of rules: all are plain. -/
def unsplit (rules : List NamedRule) : List ParserRuleSpec := rules.map fun r => .plain r.1 r.2

/-- What the rewrite gives for each of several rules. -/
def eliminateAll (rules : List NamedRule) : Except RuleFault (List ParserRuleSpec) :=
  rules.mapM fun r => eliminate r.1 r.2

theorem Eliminated.name_eq {name : String} {alternatives : List Alternative}
    {spec : ParserRuleSpec} (h : Eliminated name alternatives spec) : spec.name = name := by
  cases h <;> rfl

/-- A rule before the rewrite and the one that it becomes. -/
structure Becomes (rules : List NamedRule) (specs : List ParserRuleSpec) (name : String)
    (alternatives : List Alternative) (spec : ParserRuleSpec) : Prop where
  mem : (name, alternatives) ∈ rules
  before : specOf (unsplit rules) name = some (.plain name alternatives)
  after : specOf specs name = some spec
  eliminated : Eliminated name alternatives spec

variable {rules : List NamedRule}

/-- The rewrite keeps the rules under their names. -/
theorem specOf_cases (h : eliminateAll rules = .ok specs) (name : String) :
    (specOf (unsplit rules) name = none ∧ specOf specs name = none) ∨
      ∃ alternatives spec, Becomes rules specs name alternatives spec := by
  have hrules := mapM_eq_ok.mp h
  clear h
  induction hrules with
  | nil => exact .inl ⟨rfl, rfl⟩
  | @cons r spec rules specs hr _ ih =>
      have helim := eliminated_of_eliminate hr
      by_cases hname : r.1 = name
      · subst hname
        refine .inr ⟨r.2, spec, List.mem_cons_self, ?_, ?_, helim⟩
        · simp [specOf, unsplit, ParserRuleSpec.name]
        · simp [specOf, helim.name_eq]
      · have hbefore : specOf (unsplit (r :: rules)) name = specOf (unsplit rules) name := by
          simp [specOf, unsplit, ParserRuleSpec.name, hname]
        have hafter : specOf (spec :: specs) name = specOf specs name := by
          simp [specOf, helim.name_eq, hname]
        rcases ih with ⟨hnone, hnone'⟩ | ⟨alternatives, spec', h⟩
        · exact .inl ⟨hbefore.trans hnone, hafter.trans hnone'⟩
        · exact .inr ⟨alternatives, spec', List.mem_cons_of_mem r h.mem, hbefore.trans h.before,
            hafter.trans h.after, h.eliminated⟩

theorem exists_becomes (h : eliminateAll rules = .ok specs) {name : String}
    {spec : ParserRuleSpec} (hspec : specOf specs name = some spec) :
    ∃ alternatives, Becomes rules specs name alternatives spec := by
  rcases specOf_cases h name with ⟨-, hnone⟩ | ⟨alternatives, spec', hbecomes⟩
  · rw [hnone] at hspec
    cases hspec
  · obtain rfl := Option.some.inj (hspec.symm.trans hbecomes.after)
    exact ⟨alternatives, hbecomes⟩

theorem specOf_unsplit {name : String} {spec : ParserRuleSpec}
    (h : specOf (unsplit rules) name = some spec) :
    ∃ name' alternatives, spec = .plain name' alternatives := by
  obtain ⟨r, -, rfl⟩ := List.mem_map.mp (List.mem_of_find?_eq_some h)
  exact ⟨r.1, r.2, rfl⟩

/-- Before the rewrite precedences say nothing. -/
theorem Derives.unsplit_precedence {name : String} {precedence : Nat} {w : List τ}
    (h : Derives accepts (unsplit rules) (.rule name precedence) w) (precedence' : Nat) :
    Derives accepts (unsplit rules) (.rule name precedence') w := by
  cases h with
  | plain _ hspec ha hw => exact .plain precedence' hspec ha hw
  | primary _ hspec _ _ =>
      obtain ⟨_, _, heq⟩ := specOf_unsplit hspec
      cases heq
  | suffix hspec _ _ _ _ =>
      obtain ⟨_, _, heq⟩ := specOf_unsplit hspec
      cases heq

/-! ## The rewrite adds nothing -/

/-- Before the rewrite a mark at the end of an alternative says nothing. -/
theorem Derives.unmark {name : String} {precedence : Nat} {a : Alternative} {w : List τ}
    (h : Derives accepts (unsplit rules) (.items (markOperand name precedence a).elements) w) :
    Derives accepts (unsplit rules) (.items a.elements) w := by
  rcases markOperand_cases name precedence a with ⟨-, ha⟩ | ⟨init, -, hinit, hmarked⟩
  · rwa [ha] at h
  · rw [hmarked, derives_append_iff] at h
    obtain ⟨u, v, rfl, hu, hv⟩ := h
    rw [derives_ruleAt_iff] at hv
    rw [hinit]
    exact hu.append (derives_rule_iff.mpr (hv.unsplit_precedence 0))

/-- What is derived after the rewrite was derived before it. -/
theorem Derives.before {goal : Goal} {w : List τ} (hrules : eliminateAll rules = .ok specs)
    (h : Derives accepts specs goal w) : Derives accepts (unsplit rules) goal w := by
  induction h with
  | nil => exact .nil
  | terminal he haccepts _ ih => exact .terminal he haccepts ih
  | call _ _ ih ih' => exact .call ih ih'
  | callAt _ _ ih ih' => exact .callAt ih ih'
  | block ha _ _ ih ih' => exact .block ha ih ih'
  | skip greedy hkind _ ih => exact .skip greedy hkind ih
  | once kind greedy _ _ ih ih' => exact .once kind greedy ih ih'
  | again hkind _ _ ih ih' => exact .again hkind ih ih'
  | @plain name _ _ _ _ precedence hspec ha _ ih =>
      obtain ⟨alternatives, hbecomes⟩ := exists_becomes hrules hspec
      cases hbecomes.eliminated with
      | plain _ => exact .plain precedence hbecomes.before ha ih
  | @primary name _ _ _ _ _ precedence hspec ha _ ih =>
      obtain ⟨alternatives, hbecomes⟩ := exists_becomes hrules hspec
      cases hbecomes.eliminated with
      | leftRecursive hprimaries _ =>
          obtain ⟨p, a, hstands, -, rfl⟩ := (hprimaries _).mp ha
          exact .plain precedence hbecomes.before hstands.mem ih.unmark
  | @suffix name _ _ _ _ precedence u v hspec hs _ _ _ ih ih' =>
      obtain ⟨alternatives, hbecomes⟩ := exists_becomes hrules hspec
      cases hbecomes.eliminated with
      | leftRecursive _ hsuffixes =>
          obtain ⟨p, a, rest, hstands, ha, -, rfl⟩ := (hsuffixes _).mp hs
          obtain ⟨tail, htail⟩ := markOperand_leading p ha
          rw [htail] at ih'
          have hmarked : Derives accepts (unsplit rules)
              (.items (markOperand name p a).elements) (u ++ v) := by
            rw [htail]
            exact .call (ih.unsplit_precedence 0) ih'
          exact .plain precedence hbecomes.before hstands.mem hmarked.unmark

/-! ## The rewrite loses nothing -/

/-- What can follow every match of a rule at precedence zero. -/
def Follows (accepts : Element → τ → Prop) (specs : List ParserRuleSpec) (name : String)
    (y : List τ) : Prop :=
  ∀ u, Derives accepts specs (.rule name 0) u → Derives accepts specs (.rule name 0) (u ++ y)

theorem follows_nil {name : String} : Follows accepts specs name [] := by
  intro u hu
  rwa [List.append_nil]

/-- A match of a left-recursive rule is a match at any precedence and suffixes that can follow every
match at precedence zero. -/
theorem Derives.hoist {name name' : String} {primaries : List Alternative}
    {suffixes : List SuffixSpec} {w : List τ}
    (hspec : specOf specs name = some (.leftRecursive name' primaries suffixes))
    (h : Derives accepts specs (.rule name 0) w) :
    ∃ x y, w = x ++ y ∧ (∀ p, Derives accepts specs (.rule name p) x) ∧
      Follows accepts specs name y := by
  generalize hgoal : Goal.rule name 0 = goal at h
  induction h with
  | nil | terminal | call | callAt | block | skip | once | again => cases hgoal
  | plain _ hplain _ _ =>
      cases hgoal
      rw [hspec] at hplain
      cases hplain
  | @primary _ _ _ _ _ w _ hprimary ha hw =>
      cases hgoal
      exact ⟨w, [], (List.append_nil w).symm, fun p => .primary p hprimary ha hw, follows_nil⟩
  | @suffix _ _ _ _ _ _ u v hsuffix hs hle _ hv ih =>
      cases hgoal
      obtain ⟨x, y, rfl, hx, hy⟩ := ih rfl
      refine ⟨x, y ++ v, List.append_assoc .., hx, fun u hu => ?_⟩
      rw [← List.append_assoc]
      exact .suffix hsuffix hs hle (hy u hu) hv

/-- A marked alternative may derive less, but what is missing can follow every match. -/
theorem Derives.mark {name name' : String} {primaries : List Alternative}
    {suffixes : List SuffixSpec} {a : Alternative} {w : List τ}
    (hspec : specOf specs name = some (.leftRecursive name' primaries suffixes)) (precedence : Nat)
    (h : Derives accepts specs (.items a.elements) w) :
    ∃ x y, w = x ++ y ∧
      Derives accepts specs (.items (markOperand name precedence a).elements) x ∧
      Follows accepts specs name y := by
  rcases markOperand_cases name precedence a with ⟨-, ha⟩ | ⟨init, -, hinit, hmarked⟩
  · rw [ha]
    exact ⟨w, [], (List.append_nil w).symm, h, follows_nil⟩
  · rw [hinit, derives_append_iff] at h
    obtain ⟨u, v, rfl, hu, hv⟩ := h
    obtain ⟨x, y, rfl, hx, hy⟩ := (derives_rule_iff.mp hv).hoist hspec
    rw [hmarked]
    exact ⟨u ++ x, y, (List.append_assoc ..).symm, hu.append (derives_ruleAt_iff.mpr (hx _)), hy⟩

/-- The alternatives of a rule still derive matches of the rule. -/
theorem Becomes.derives {name : String} {alternatives : List Alternative} {spec : ParserRuleSpec}
    (h : Becomes rules specs name alternatives spec) {a : Alternative} (ha : a ∈ alternatives)
    {w : List τ} (hw : Derives accepts specs (.items a.elements) w) :
    Derives accepts specs (.rule name 0) w := by
  have hafter := h.after
  cases h.eliminated with
  | plain _ => exact .plain 0 hafter ha hw
  | leftRecursive hprimaries hsuffixes =>
      obtain ⟨precedence, hstands⟩ := exists_stands ha
      cases hstarts : startsWithSelf name a with
      | false =>
          obtain ⟨x, y, rfl, hx, hy⟩ := hw.mark hafter precedence
          have hprimary := (hprimaries _).mpr ⟨precedence, a, hstands, hstarts, rfl⟩
          exact hy x (.primary 0 hafter hprimary hx)
      | true =>
          obtain ⟨rest, hrest⟩ := startsWithSelf_iff.mp hstarts
          by_cases hne : rest = []
          · rw [hrest, hne] at hw
            exact derives_rule_iff.mp hw
          · obtain ⟨x, y, rfl, hx, hy⟩ := hw.mark hafter precedence
            obtain ⟨tail, htail⟩ := markOperand_leading precedence hrest
            have hs := (hsuffixes _).mpr ⟨precedence, a, rest, hstands, hrest, hne, rfl⟩
            rw [htail] at hx hs
            cases hx with
            | terminal he => cases he
            | call hu hv => exact hy _ (.suffix hafter hs (Nat.zero_le _) hu hv)

/-- A goal as it occurs before the rewrite. -/
def Goal.Written : Goal → Prop
  | items es => ∀ e ∈ es, e.Written
  | rule _ precedence => precedence = 0

/-- What was derived before the rewrite is derived after it. -/
theorem Derives.after {goal : Goal} {w : List τ} (hrules : eliminateAll rules = .ok specs)
    (hwritten : ∀ r ∈ rules, ∀ a ∈ r.2, ∀ e ∈ a.elements, e.Written)
    (h : Derives accepts (unsplit rules) goal w) (hgoal : goal.Written) :
    Derives accepts specs goal w := by
  induction h with
  | nil => exact .nil
  | terminal he haccepts _ ih =>
      exact .terminal he haccepts (ih fun e h => hgoal e (List.mem_cons_of_mem _ h))
  | call _ _ ih ih' => exact .call (ih rfl) (ih' fun e h => hgoal e (List.mem_cons_of_mem _ h))
  | callAt =>
      cases hgoal _ List.mem_cons_self
  | block ha _ _ ih ih' =>
      refine .block ha (ih ?_) (ih' fun e h => hgoal e (List.mem_cons_of_mem _ h))
      cases hgoal _ List.mem_cons_self with
      | block halternatives => exact halternatives _ ha
  | skip greedy hkind _ ih =>
      exact .skip greedy hkind (ih fun e h => hgoal e (List.mem_cons_of_mem _ h))
  | once kind greedy _ _ ih ih' =>
      refine .once kind greedy (ih ?_) (ih' fun e h => hgoal e (List.mem_cons_of_mem _ h))
      cases hgoal _ List.mem_cons_self with
      | repeated _ _ he => simpa [Goal.Written] using he
  | again hkind _ _ ih ih' =>
      refine .again hkind (ih ?_) (ih' hgoal)
      cases hgoal _ List.mem_cons_self with
      | repeated _ _ he => simpa [Goal.Written] using he
  | @plain name _ _ a _ precedence hspec ha _ ih =>
      obtain rfl : precedence = 0 := hgoal
      rcases specOf_cases hrules name with ⟨hnone, -⟩ | ⟨alternatives, spec, hbecomes⟩
      · rw [hspec] at hnone
        cases hnone
      · cases Option.some.inj (hspec.symm.trans hbecomes.before)
        exact hbecomes.derives ha (ih (hwritten _ hbecomes.mem a ha))
  | primary _ hspec _ _ _ =>
      obtain ⟨_, _, heq⟩ := specOf_unsplit hspec
      cases heq
  | suffix hspec _ _ _ _ _ _ =>
      obtain ⟨_, _, heq⟩ := specOf_unsplit hspec
      cases heq

/-- The rewrite of rules as a file can contain them keeps the words of every rule. -/
theorem derives_iff_of_eliminateAll {rules : List NamedRule} {specs : List ParserRuleSpec}
    (hrules : eliminateAll rules = .ok specs)
    (hwritten : ∀ r ∈ rules, ∀ a ∈ r.2, ∀ e ∈ a.elements, e.Written)
    (accepts : Element → τ → Prop) (name : String) (w : List τ) :
    Derives accepts (unsplit rules) (.rule name 0) w ↔ Derives accepts specs (.rule name 0) w :=
  ⟨fun h => h.after hrules hwritten rfl, fun h => h.before hrules⟩

/-- Sums of letters and of sums in brackets. -/
def sumAlternatives : List Alternative :=
  [{ elements := [.token "LETTER"] },
    { elements := [.token "OPEN", .rule "sum", .token "CLOSE"] },
    { elements := [.rule "sum", .token "PLUS", .rule "sum"] }]

/-- The rule of sums after the rewrite; the operand of the sum binds more tightly than the sum. -/
def sumSpec : ParserRuleSpec :=
  .leftRecursive "sum" (sumAlternatives.take 2)
    [⟨1, false, [.token "PLUS", .ruleAt "sum" 2]⟩]

/-- A token or a call without a precedence. -/
def isSymbol : Element → Bool
  | .token _ => true
  | .rule _ => true
  | _ => false

theorem written_of_isSymbol {alternatives : List Alternative}
    (h : ∀ a ∈ alternatives, ∀ e ∈ a.elements, isSymbol e = true) :
    ∀ a ∈ alternatives, ∀ e ∈ a.elements, e.Written := by
  intro a ha e he
  have hsymbol := h a ha e he
  cases e with
  | token name => exact .token name
  | rule name => exact .rule name
  | _ => cases hsymbol

theorem sums_derives_iff :
    let accepts (e : Element) (t : String) : Prop := e = .token t
    eliminateAll [("sum", sumAlternatives)] = .ok [sumSpec] ∧
      (∀ r ∈ [("sum", sumAlternatives)], ∀ a ∈ r.2, ∀ e ∈ a.elements, e.Written) ∧
      Derives accepts (unsplit [("sum", sumAlternatives)]) (.rule "sum" 0)
        ["LETTER", "PLUS", "LETTER", "PLUS", "LETTER"] ∧
      Derives accepts [sumSpec] (.rule "sum" 0) ["LETTER", "PLUS", "LETTER", "PLUS", "LETTER"] := by
  intro accepts
  have hrules : eliminateAll [("sum", sumAlternatives)] = .ok [sumSpec] := rfl
  have hwritten : ∀ r ∈ [("sum", sumAlternatives)], ∀ a ∈ r.2, ∀ e ∈ a.elements, e.Written := by
    intro r hr
    obtain rfl := List.mem_singleton.mp hr
    exact written_of_isSymbol (by decide)
  have hletter : Derives accepts (unsplit [("sum", sumAlternatives)]) (.rule "sum" 0) ["LETTER"] :=
    .plain 0 rfl List.mem_cons_self (.terminal rfl rfl .nil)
  -- the right operand is a sum, as it may be before the rewrite
  have hplus : ∀ u v, Derives accepts (unsplit [("sum", sumAlternatives)]) (.rule "sum" 0) u →
      Derives accepts (unsplit [("sum", sumAlternatives)]) (.rule "sum" 0) v →
      Derives accepts (unsplit [("sum", sumAlternatives)]) (.rule "sum" 0) (u ++ "PLUS" :: v) := by
    intro u v hu hv
    refine .plain 0 rfl (List.mem_cons_of_mem _ (List.mem_cons_of_mem _ List.mem_cons_self)) ?_
    exact .call hu (.terminal rfl rfl (derives_rule_iff.mpr hv))
  have hbefore := hplus _ _ hletter (hplus _ _ hletter hletter)
  exact ⟨hrules, hwritten, hbefore,
    (derives_iff_of_eliminateAll hrules hwritten accepts "sum" _).mp hbefore⟩

end GrammarEngine.LeftRecursion
