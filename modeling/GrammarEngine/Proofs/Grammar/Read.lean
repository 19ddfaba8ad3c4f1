import GrammarEngine.Grammar.Reader
import GrammarEngine.Proofs.Grammar.Lexemes
import GrammarEngine.Proofs.Checked
import GrammarEngine.Proofs.Unit.Declared

/-!
# Grammars as they are read

The names of a grammar that was read from a file are words, its rules belong to its modes, and the
elements of its rules are such as a file can contain: without precedences, with ascending ranges,
and with blocks that nest no deeper than the reader follows them.

The reader is followed step by step. What it has still to read are lexemes whose names are words,
and it takes them from the front only.
-/
namespace GrammarEngine

/-- The elements of an alternative of a file in which blocks nest to a depth. -/
def Alternative.Within (depth : Nat) (a : Alternative) : Prop :=
  ∀ e ∈ a.elements, e.Within 0 depth

/-- A rule of a file. -/
def Rule.FromFile (r : Rule) : Prop :=
  IsWord r.name ∧ ∀ a ∈ r.alternatives, Alternative.Within Reading.maxBlockDepth a

/-- A grammar of a file, whose rules belong to modes that it has. -/
structure Grammar.FromFile (g : Grammar) : Prop where
  name : IsWord g.name
  rules : ∀ r ∈ g.rules, r.FromFile
  modes : ∀ r ∈ g.rules, r.mode ∈ defaultMode :: g.modes

/-! ## Sets -/

namespace Literal

theorem setItem_le {cs : List Char} {r : Char × Char}
    {rest : { after : List Char // after.length < cs.length }}
    (h : setItem cs = .ok (some (r, rest))) : r.1 ≤ r.2 := by
  unfold setItem at h
  split at h
  · cases h
  · cases h
  · split at h
    · cases h
      exact Char.le_refl _
    · split at h
      · cases h
      · cases h
        exact Char.le_refl _
      · split at h
        · cases h
        · next hle =>
          cases h
          exact Char.not_lt.mp hle

theorem ranges_le {cs : List Char} {rs : List (Char × Char)} (h : ranges cs = .ok rs) :
    ∀ r ∈ rs, r.1 ≤ r.2 := by
  induction cs using ranges.induct generalizing rs with
  | case1 cs fault hitem =>
      rw [ranges, hitem] at h
      cases h
  | case2 cs hitem =>
      rw [ranges, hitem] at h
      cases h
      simp
  | case3 cs r rest hlt hitem ih =>
      rw [ranges, hitem] at h
      obtain ⟨more, hmore, rfl⟩ := map_eq_ok.mp h
      exact List.forall_mem_cons.mpr ⟨setItem_le hitem, ih hmore⟩

theorem charSet_le {cs : List Char} {rs : List (Char × Char)} (h : charSet cs = .ok rs) :
    ∀ r ∈ rs, r.1 ≤ r.2 := by
  unfold charSet at h
  split at h
  · cases h
  · next hranges =>
    cases h
    exact ranges_le hranges
  · cases h

end Literal

namespace Reading

/-- The names that have still to be read are words. -/
def Spelled (s : State) : Prop := ∀ l ∈ s.rest, l.lexeme.Spelled

variable {α : Type} {P : α → Prop}

/-! ## Lexemes -/

theorem fail_yields (fault : SyntaxFault) : Yields Spelled (fail fault : Reading α) P :=
  Yields.refused fun _ => ⟨_, rfl⟩

theorem failAt_yields (p : Position) (fault : SyntaxFault) :
    Yields Spelled (failAt p fault : Reading α) P :=
  Yields.refused fun _ => ⟨_, rfl⟩

theorem here_yields : Yields Spelled here fun _ => True :=
  Yields.get.bind fun _ _ => Yields.pure trivial

theorem remaining_yields : Yields Spelled remaining fun _ => True :=
  Yields.get.bind fun _ _ => Yields.pure trivial

theorem notice_yields (n : Notice) : Yields Spelled (notice n) fun _ => True :=
  Yields.modify fun _ hs => hs

theorem peek?_yields : Yields Spelled peek? fun found => ∀ l, found = some l → l.Spelled := by
  refine Yields.get.bind fun s hs => Yields.pure fun l hl => ?_
  obtain ⟨placed, hplaced, rfl⟩ := Option.map_eq_some_iff.mp hl
  exact hs placed (List.mem_of_mem_head? hplaced)

theorem next_yields : Yields Spelled next Lexeme.Spelled := by
  intro s hs l t hrun
  unfold next at hrun
  split at hrun
  · next placed rest hrest =>
    cases hrun
    refine ⟨hs placed (by rw [hrest]; exact List.mem_cons_self), fun l hl => hs l ?_⟩
    rw [hrest]
    exact List.mem_cons_of_mem placed hl
  · cases hrun

theorem drop_yields : Yields Spelled drop fun _ => True :=
  Yields.modify fun _ hs l hl => hs l (List.mem_of_mem_tail hl)

theorem eat_yields (l : Lexeme) : Yields Spelled (eat l) fun _ => True := by
  refine peek?_yields.bind fun found _ => ?_
  split
  · exact drop_yields.bind fun _ _ => Yields.pure trivial
  · exact Yields.pure trivial

theorem eatSign_yields (s : Sign) : Yields Spelled (eatSign s) fun _ => True := eat_yields _

theorem expect_yields (l : Lexeme) : Yields Spelled (expect l) fun _ => True := by
  refine (eat_yields l).bind fun taken _ => ?_
  cases taken with
  | true => exact Yields.pure trivial
  | false =>
      refine peek?_yields.bind fun found _ => ?_
      cases found <;> exact fail_yields _

theorem expectSign_yields (s : Sign) : Yields Spelled (expectSign s) fun _ => True :=
  expect_yields _

theorem name_yields (what : String) : Yields Spelled (name what) IsWord := by
  refine peek?_yields.bind fun found hfound => ?_
  split
  · next s hs =>
    obtain ⟨l, hl, hname⟩ := Option.bind_eq_some_iff.mp hs
    exact drop_yields.bind fun _ _ => Yields.pure (hfound l hl s hname)
  · exact fail_yields _

theorem action_yields (what : String) : Yields Spelled (action what) fun _ => True := by
  refine next_yields.bind fun l _ => ?_
  split
  · exact Yields.pure trivial
  · exact fail_yields _

theorem manyWhile_yields {admits : Option Lexeme → Bool} {item : Reading α}
    (h : Yields Spelled item P) (bound : Nat) :
    Yields Spelled (manyWhile admits item bound) fun found => ∀ a ∈ found, P a := by
  induction bound with
  | zero => exact Yields.pure (by simp)
  | succ bound ih =>
      refine peek?_yields.bind fun found _ => ?_
      split
      · refine h.bind fun a ha => ih.bind fun rest hrest => Yields.pure ?_
        exact List.forall_mem_cons.mpr ⟨ha, hrest⟩
      · exact Yields.pure (by simp)

theorem many_yields {admits : Option Lexeme → Bool} {item : Reading α}
    (h : Yields Spelled item P) :
    Yields Spelled (many admits item) fun found => ∀ a ∈ found, P a :=
  remaining_yields.bind fun n _ => manyWhile_yields h n

theorem separatedBy_yields {separator : Sign} {item : Reading α} (h : Yields Spelled item P) :
    Yields Spelled (separatedBy separator item) fun found => ∀ a ∈ found, P a := by
  refine h.bind fun first hfirst => ?_
  refine (many_yields (drop_yields.bind fun _ _ => h)).bind fun others hothers => Yields.pure ?_
  exact List.forall_mem_cons.mpr ⟨hfirst, hothers⟩

/-! ## Atoms -/

/-- An element that is no repetition. -/
def Atom (depth : Nat) (e : Element) : Prop :=
  e.Within 0 depth ∧ e.NotRepeated

variable {depth : Nat}

theorem literal_yields (body : String) : Yields Spelled (literal body) fun _ => True := by
  have hlift : Yields Spelled (liftLiteral (Literal.unescape body.toList)) fun _ => True := by
    unfold liftLiteral
    split
    · exact Yields.pure trivial
    · exact fail_yields _
  refine hlift.bind fun cs _ => ?_
  split
  · exact fail_yields _
  · exact Yields.pure trivial

theorem charSet_yields (body : String) : Yields Spelled (charSet body) (Atom depth) := by
  have hlift : Yields Spelled (liftLiteral (Literal.charSet body.toList))
      fun rs => ∀ r ∈ rs, r.1 ≤ r.2 := by
    cases hset : Literal.charSet body.toList with
    | ok rs => exact Yields.pure (Literal.charSet_le hset)
    | error fault => exact fail_yields _
  exact hlift.bind fun rs hrs => Yields.pure ⟨.charSet false hrs, nofun⟩

theorem literalOrRange_yields (body : String) :
    Yields Spelled (literalOrRange body) (Atom depth) := by
  refine (literal_yields body).bind fun low _ => (eatSign_yields _).bind fun taken _ => ?_
  cases taken with
  | false => exact Yields.pure ⟨.literal _ _, nofun⟩
  | true =>
      refine next_yields.bind fun l _ => ?_
      cases l with
      | literal upper =>
          refine (literal_yields upper).bind fun high _ => ?_
          dsimp only
          split
          · split
            · next hle =>
              refine Yields.pure ⟨.charSet false fun r hr => ?_, nofun⟩
              obtain rfl := List.mem_singleton.mp hr
              exact hle
            · exact fail_yields _
          · exact fail_yields _
      | _ => exact (fail_yields (P := fun _ => False) _).bind fun _ h => h.elim

theorem setMember_yields (depth : Nat) : Yields Spelled setMember (Atom depth) := by
  refine next_yields.bind fun l _ => ?_
  cases l with
  | literal body => exact literalOrRange_yields body
  | charSet body => exact charSet_yields body
  | tokenName name => exact Yields.pure ⟨.token _ _, nofun⟩
  | _ => exact fail_yields _

theorem exclusion_yields : Yields Spelled exclusion (Atom depth) := by
  refine (eatSign_yields _).bind fun taken _ => ?_
  cases taken with
  | true =>
      refine (separatedBy_yields (setMember_yields depth)).bind fun members hmembers => ?_
      exact (expectSign_yields _).bind fun _ _ =>
        Yields.pure ⟨.not fun m hm => (hmembers m hm).1, nofun⟩
  | false =>
      refine (setMember_yields depth).bind fun member hmember => ?_
      refine Yields.pure ⟨.not fun m hm => ?_, nofun⟩
      obtain rfl := List.mem_singleton.mp hm
      exact hmember.1

theorem skipLabel_yields : Yields Spelled skipLabel fun _ => True := by
  refine Yields.get.bind fun s _ => ?_
  split
  · split
    · exact drop_yields.bind fun _ _ => drop_yields
    · exact Yields.pure trivial
  · exact Yields.pure trivial

theorem withRepetition_yields {e : Element} (h : Atom depth e) :
    Yields Spelled (withRepetition e) fun d => d.Within 0 depth := by
  refine peek?_yields.bind fun found _ => ?_
  split
  · exact Yields.pure h.1
  · refine drop_yields.bind fun _ _ => (eatSign_yields _).bind fun taken _ => ?_
    exact Yields.pure (.repeated _ _ h.1 h.2)

/-! ## Elements -/

/-- The reader for the blocks of elements that may nest to a depth: there is none at depth zero. -/
def Blocks (block : Option (Reading (List Alternative))) (depth : Nat) : Prop :=
  ∀ inner, block = some inner → ∃ d, depth = d + 1 ∧
    Yields Spelled inner fun alternatives => ∀ a ∈ alternatives, Alternative.Within d a

theorem element_yields {block : Option (Reading (List Alternative))} (h : Blocks block depth) :
    Yields Spelled (element block) fun found => ∀ e, found = some e → e.Within 0 depth := by
  have hrepeated : ∀ e : Element, Atom depth e → Yields Spelled
      (do return some (← withRepetition e) : Reading (Option Element))
      fun found => ∀ d, found = some d → d.Within 0 depth := fun e he =>
    (withRepetition_yields he).bind fun d hd => Yields.pure fun _ h => Option.some.inj h ▸ hd
  refine skipLabel_yields.bind fun _ _ => here_yields.bind fun p _ => next_yields.bind fun l _ => ?_
  cases l with
  | action body =>
      refine (eatSign_yields _).bind fun taken _ => ?_
      cases taken
      · exact (notice_yields _).bind fun _ _ => Yields.pure nofun
      · exact (notice_yields _).bind fun _ _ => Yields.pure nofun
  | literal body => exact (literalOrRange_yields body).bind fun e he => hrepeated e he
  | tokenName name =>
      refine (Yields.pure (P := Atom depth) ?_).bind fun e he => hrepeated e he
      split
      · exact ⟨.eof _, nofun⟩
      · exact ⟨.token _ _, nofun⟩
  | ruleName name =>
      refine peek?_yields.bind fun found _ => ?_
      split
      · exact drop_yields.bind fun _ _ => hrepeated _ ⟨.rule _ _, nofun⟩
      · exact hrepeated _ ⟨.rule _ _, nofun⟩
  | charSet body => exact (charSet_yields body).bind fun e he => hrepeated e he
  | sign s =>
      cases s with
      | dot => exact hrepeated _ ⟨.any _, nofun⟩
      | tilde => exact exclusion_yields.bind fun e he => hrepeated e he
      | lparen =>
          cases block with
          | none => exact (failAt_yields (P := fun _ => False) _ _).bind fun _ h => h.elim
          | some inner =>
              obtain ⟨d, rfl, hinner⟩ := h inner rfl
              exact hinner.bind fun alternatives halternatives =>
                (expectSign_yields _).bind fun _ _ => hrepeated _ ⟨.block halternatives, nofun⟩
      | _ => exact (failAt_yields (P := fun _ => False) _ _).bind fun _ h => h.elim
  | _ => exact (failAt_yields (P := fun _ => False) _ _).bind fun _ h => h.elim

/-! ## Alternatives -/

/-- A computation of which only the effect on the lexemes matters. -/
abbrev Passes (x : Reading α) : Prop := Yields Spelled x fun _ => True

theorem word_passes (fault : SyntaxFault) {rest : String → Reading α}
    (h : ∀ s, Passes (rest s)) :
    Passes (do match word? (← next) with
      | some s => rest s
      | none => fail fault : Reading α) := by
  refine next_yields.bind fun l _ => ?_
  split
  · exact h _
  · exact fail_yields _

theorem commandArgument_passes : Passes commandArgument := by
  refine (eatSign_yields _).bind fun taken _ => ?_
  cases taken with
  | true => exact word_passes _ fun s => (expectSign_yields _).bind fun _ _ => Yields.pure trivial
  | false => exact Yields.pure trivial

theorem commandNamed_passes (name : String) : Passes (commandNamed name) := by
  refine commandArgument_passes.bind fun argument _ => ?_
  split
  · exact Yields.pure trivial
  · exact fail_yields _

theorem command_passes : Passes command := by
  refine next_yields.bind fun l _ => ?_
  split
  · exact commandNamed_passes _
  · exact commandNamed_passes _
  · exact fail_yields _

theorem alternativeOption_passes : Passes alternativeOption := by
  refine (name_yields _).bind fun key _ => ?_
  refine Yields.bind (P := fun _ => True) ?_ fun value _ => Yields.pure trivial
  refine (eatSign_yields _).bind fun taken _ => ?_
  cases taken with
  | true => exact word_passes _ fun s => Yields.pure trivial
  | false => exact Yields.pure trivial

theorem alternativeOptions_passes : Passes alternativeOptions := by
  refine (eatSign_yields _).bind fun taken _ => ?_
  cases taken with
  | true =>
      exact (separatedBy_yields alternativeOption_passes).bind fun found _ =>
        (expectSign_yields _).bind fun _ _ => Yields.pure trivial
  | false => exact Yields.pure trivial

theorem alternative_yields {block : Option (Reading (List Alternative))} (h : Blocks block depth) :
    Yields Spelled (alternative block) (Alternative.Within depth) := by
  refine alternativeOptions_passes.bind fun rightAssoc _ => ?_
  refine (many_yields (element_yields h)).bind fun elements helements => ?_
  refine Yields.bind (P := fun _ => True) ?_ fun commands _ => ?_
  · refine (eatSign_yields _).bind fun taken _ => ?_
    cases taken with
    | true => exact (separatedBy_yields command_passes).mono fun _ _ => trivial
    | false => exact Yields.pure trivial
  refine Yields.bind (P := fun _ => True) ?_ fun label _ => Yields.pure fun e he => ?_
  · refine (eatSign_yields _).bind fun taken _ => ?_
    cases taken with
    | true => exact (name_yields _).bind fun _ _ => Yields.pure trivial
    | false => exact Yields.pure trivial
  · obtain ⟨found, hfound, rfl⟩ := List.mem_filterMap.mp he
    exact helements _ hfound e rfl

theorem alternatives_yields (depth : Nat) :
    Yields Spelled (alternatives depth) fun found => ∀ a ∈ found, Alternative.Within depth a := by
  induction depth with
  | zero => exact separatedBy_yields (alternative_yields nofun)
  | succ depth ih =>
      refine separatedBy_yields (alternative_yields fun inner hinner => ⟨depth, rfl, ?_⟩)
      exact Option.some.inj hinner ▸ ih

/-! ## Rules -/

theorem untilAction_passes (bound : Nat) : Passes (untilAction bound) := by
  induction bound with
  | zero => exact fail_yields _
  | succ bound ih =>
      refine next_yields.bind fun l _ => ?_
      split
      · exact Yields.pure trivial
      · exact ih

theorem namedAction_passes : Passes namedAction :=
  (expectSign_yields _).bind fun _ _ => remaining_yields.bind fun _ _ =>
    (untilAction_passes _).bind fun _ _ => notice_yields _

theorem discard_passes {x : Reading α} (h : Yields Spelled x P) : Passes (discard x) :=
  h.bind (f := fun _ => pure ()) fun _ _ => Yields.pure trivial

theorem ruleHeader_passes : Passes ruleHeader := by
  refine peek?_yields.bind fun found _ => ?_
  split
  · exact namedAction_passes
  · exact drop_yields.bind fun _ _ => discard_passes (action_yields _)
  · refine drop_yields.bind fun _ _ => next_yields.bind fun l _ => ?_
    split
    · exact Yields.pure trivial
    · exact fail_yields _
  · exact drop_yields

theorem handler_passes (rule : String) : Passes (handler rule) := by
  refine next_yields.bind fun keyword _ => ?_
  have hrest : Passes (do
      discard (action "exception handler")
      notice (.exceptionHandler rule) : Reading Unit) :=
    (discard_passes (action_yields _)).bind fun _ _ => notice_yields _
  split
  · exact (discard_passes next_yields).bind fun _ _ => hrest
  · exact hrest

theorem rule_yields (mode : String) : Yields Spelled (rule mode) fun r =>
    r.FromFile ∧ (r.mode = mode ∨ r.mode = defaultMode) := by
  refine here_yields.bind fun position _ => (eat_yields _).bind fun fragment _ => ?_
  refine (name_yields _).bind fun name hname => ?_
  refine (discard_passes (many_yields ruleHeader_passes)).bind
    fun _ _ => ?_
  refine (expectSign_yields _).bind fun _ _ => ?_
  refine (alternatives_yields maxBlockDepth).bind fun alternatives halternatives => ?_
  refine (expectSign_yields _).bind fun _ _ => ?_
  refine (discard_passes (many_yields (handler_passes name))).bind
    fun _ _ => ?_
  refine Yields.pure ⟨⟨hname, halternatives⟩, ?_⟩
  dsimp only
  split
  · exact .inl rfl
  · exact .inr rfl

/-! ## Grammars -/

/-- What declarations leave alone: the name, the file, the modes and the rules of a grammar. -/
def SameRules (g g' : Grammar) : Prop :=
  g'.name = g.name ∧ g'.file = g.file ∧ g'.modes = g.modes ∧ g'.rules = g.rules

/-- A declaration changes nothing else. -/
def Declares (f : Grammar → Grammar) : Prop := ∀ g, SameRules g (f g)

theorem sameRules_foldl {fs : List (Grammar → Grammar)} (h : ∀ f ∈ fs, Declares f) (g : Grammar) :
    SameRules g (fs.foldl (fun g f => f g) g) := by
  induction fs generalizing g with
  | nil => exact ⟨rfl, rfl, rfl, rfl⟩
  | cons f fs ih =>
      obtain ⟨hname, hfile, hmodes, hrules⟩ := h f List.mem_cons_self g
      obtain ⟨hname', hfile', hmodes', hrules'⟩ :=
        ih (fun f' hf' => h f' (List.mem_cons_of_mem f hf')) (f g)
      exact ⟨hname'.trans hname, hfile'.trans hfile, hmodes'.trans hmodes, hrules'.trans hrules⟩

/-- The effects that declarations have on a grammar. -/
inductive Effect : (Grammar → Grammar) → Prop
  | options (entries : List (String × String)) :
      Effect fun g => { g with options := entries.foldl setOption g.options }
  | imports (names : List String) : Effect fun g => { g with imports := g.imports ++ names }
  | tokens (names : List String) : Effect fun g => { g with tokens := g.tokens ++ names }
  | channels (names : List String) : Effect fun g => { g with channels := g.channels ++ names }
  | action : Effect id

theorem Effect.declares {f : Grammar → Grammar} (h : Effect f) : Declares f := by
  intro g
  cases h <;> exact ⟨rfl, rfl, rfl, rfl⟩

theorem declaration_effects : Yields Spelled declaration Effect := by
  refine peek?_yields.bind fun found _ => ?_
  split
  · exact drop_yields.bind fun _ _ => (action_yields _).bind fun _ _ => Yields.pure (.options _)
  · refine drop_yields.bind fun _ _ => ?_
    refine (separatedBy_yields (P := fun _ => True) ?_).bind fun imported _ =>
      (expectSign_yields _).bind fun _ _ => Yields.pure (.imports imported)
    refine (name_yields _).bind fun first _ => (eatSign_yields _).bind fun taken _ => ?_
    cases taken with
    | true => exact (name_yields _).mono fun _ _ => trivial
    | false => exact Yields.pure trivial
  · exact drop_yields.bind fun _ _ => (action_yields _).bind fun _ _ => Yields.pure (.tokens _)
  · exact drop_yields.bind fun _ _ => (action_yields _).bind fun _ _ => Yields.pure (.channels _)
  · exact namedAction_passes.bind fun _ _ => Yields.pure .action

theorem declaration_yields : Yields Spelled declaration Declares :=
  declaration_effects.mono fun _ h => h.declares

theorem modeName_passes (kind : GrammarKind) : Passes (modeName kind) := by
  refine (name_yields _).bind fun mode _ => (expectSign_yields _).bind fun _ _ => ?_
  split
  · exact fail_yields _
  · exact Yields.pure trivial

/-- A grammar of a file with the mode that is in force at some place of it. -/
def Upto (file mode : String) (g : Grammar) : Prop :=
  g.FromFile ∧ g.file = file ∧ mode ∈ defaultMode :: g.modes

theorem upto_mode {file mode mode' : String} {g : Grammar} (h : Upto file mode g) :
    Upto file mode'
      { g with modes := if g.modes.contains mode' then g.modes else g.modes ++ [mode'] } := by
  obtain ⟨hg, hfile, -⟩ := h
  have hsub : g.modes ⊆ if g.modes.contains mode' then g.modes else g.modes ++ [mode'] := by
    split
    · exact List.Subset.refl _
    · exact List.subset_append_left _ _
  refine ⟨⟨hg.name, hg.rules, fun r hr => ?_⟩, hfile, ?_⟩
  · exact List.cons_subset_cons defaultMode hsub (hg.modes r hr)
  · refine List.mem_cons_of_mem defaultMode ?_
    dsimp only
    split
    · next hin => exact List.contains_iff_mem.mp hin
    · exact List.mem_append_right _ List.mem_cons_self

theorem upto_rule {file mode : String} {g : Grammar} {r : Rule} (h : Upto file mode g)
    (hr : r.FromFile) (hmode : r.mode = mode ∨ r.mode = defaultMode) :
    Upto file mode { g with rules := g.rules ++ [r] } := by
  obtain ⟨hg, hfile, hin⟩ := h
  have hnew : r.mode ∈ defaultMode :: g.modes := by
    rcases hmode with hmode | hmode
    · rw [hmode]
      exact hin
    · rw [hmode]
      exact List.mem_cons_self
  refine ⟨⟨hg.name, ?_, ?_⟩, hfile, hin⟩
  · exact List.forall_mem_append.mpr ⟨hg.rules, by simpa using hr⟩
  · exact List.forall_mem_append.mpr ⟨hg.modes, by simpa using hnew⟩

theorem body_yields (kind : GrammarKind) (bound : Nat) {file mode : String} {g : Grammar}
    (hg : Upto file mode g) :
    Yields Spelled (body kind bound mode g) fun g => g.FromFile ∧ g.file = file := by
  induction bound generalizing mode g with
  | zero => exact Yields.pure ⟨hg.1, hg.2.1⟩
  | succ bound ih =>
      refine peek?_yields.bind fun found _ => ?_
      split
      · exact Yields.pure ⟨hg.1, hg.2.1⟩
      · refine (eat_yields _).bind fun taken _ => ?_
        cases taken with
        | true => exact (modeName_passes kind).bind fun mode' _ => ih (upto_mode hg)
        | false => exact (rule_yields mode).bind fun r hr => ih (upto_rule hg hr.1 hr.2)

theorem grammarKind_passes : Passes grammarKind := by
  refine (eat_yields _).bind fun taken _ => ?_
  cases taken with
  | true => exact Yields.pure trivial
  | false =>
      refine (eat_yields _).bind fun taken _ => ?_
      cases taken <;> exact Yields.pure trivial

theorem grammar_yields (file : String) :
    Yields Spelled (grammar file) fun g => g.FromFile ∧ g.file = file := by
  refine grammarKind_passes.bind fun kind _ => (expect_yields _).bind fun _ _ => ?_
  refine (name_yields _).bind fun name hname => (expectSign_yields _).bind fun _ _ => ?_
  refine (many_yields declaration_yields).bind fun declarations hdeclarations => ?_
  refine remaining_yields.bind fun bound _ => body_yields kind bound ?_
  obtain ⟨hname', hfile, -, hrules⟩ := sameRules_foldl hdeclarations
    { name, kind, file, options := [], imports := [], tokens := [], channels := [], modes := [],
      rules := [] }
  refine ⟨⟨?_, ?_, ?_⟩, hfile, List.mem_cons_self⟩
  · rw [hname']
    exact hname
  · rw [hrules]
    exact fun r hr => absurd hr List.not_mem_nil
  · rw [hrules]
    exact fun r hr => absurd hr List.not_mem_nil

end Reading

/-- What was read from a file is a grammar of this file. -/
theorem Grammar.fromFile_of_read {file text : String} {g : Grammar} {warnings : List Warning}
    (h : Grammar.read file text = .ok (g, warnings)) : g.FromFile ∧ g.file = file := by
  unfold Grammar.read at h
  split at h
  · cases h
  · next lexemes hscan =>
    dsimp only at h
    split at h
    · cases h
    · next g' s hrun =>
      cases h
      refine (Reading.grammar_yields file _ (fun l hl => ?_) g s hrun).1
      have hspelled : Lexeme.scanFrom {} text.toList = .ok lexemes := hscan
      exact Lexeme.scanFrom_spelled hspelled l hl

end GrammarEngine
