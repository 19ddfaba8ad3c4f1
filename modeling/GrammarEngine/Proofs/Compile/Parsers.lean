import GrammarEngine.Compile.Parser
import GrammarEngine.Parser.Program
import GrammarEngine.Proofs.Compile.Lexers

/-!
# Images of parsers

Linking appends each rule of the library at most once, so the rules of a parser are no more than its
own and those of its library, and all of them are lowered. A rule number is given out only for a
rule that is in the list by then, so the images refer to rules that exist.
-/
namespace GrammarEngine.ParserDecl

variable {α β : Type} {scope : Scope} {own rules rules' : List ParserRuleDecl}

/-! ## Linking -/

/-- A parser's own rules, followed by different rules of its library. -/
structure Linked (scope : Scope) (own rules : List ParserRuleDecl) : Prop where
  own_first : own <+: rules
  nodup : ((rules.drop own.length).map ParserRuleDecl.name).Nodup
  named : ∀ r ∈ rules.drop own.length, ∃ l, scope.library = some l ∧ r ∈ l.rules

theorem linked_own (scope : Scope) (own : List ParserRuleDecl) : Linked scope own own where
  own_first := List.prefix_rfl
  nodup := by simp
  named := by simp

theorem Linked.length_le (h : Linked scope own rules) :
    rules.length ≤ own.length + (scope.library.elim 0 fun l => l.rules.length) := by
  have hdrop : (rules.drop own.length).length = rules.length - own.length := List.length_drop
  cases hlibrary : scope.library with
  | none =>
      have hnone : rules.drop own.length = [] := by
        rw [List.eq_nil_iff_forall_not_mem]
        intro r hr
        obtain ⟨l, hl, _⟩ := h.named r hr
        rw [hlibrary] at hl
        cases hl
      rw [hnone, List.length_nil] at hdrop
      simp only [Option.elim_none]
      omega
  | some l =>
      have hsubset : (rules.drop own.length).map ParserRuleDecl.name ⊆
          l.rules.map ParserRuleDecl.name := by
        refine List.map_subset _ fun r hr => ?_
        obtain ⟨l', hl, hr⟩ := h.named r hr
        rw [hlibrary] at hl
        cases hl
        exact hr
      have hle := (List.subperm_of_subset h.nodup hsubset).length_le
      rw [List.length_map, List.length_map] at hle
      simp only [Option.elim_some]
      omega

theorem indexOf?_lt {name : String} {i : Nat} (h : indexOf? rules name = some i) :
    i < rules.length := by
  obtain ⟨j, hj, rfl⟩ := Option.map_eq_some_iff.mp h
  have hlt := (List.findIdx?_eq_some_iff_findIdx_eq.mp hj).1
  rw [List.length_reverse] at hlt
  omega

theorem Linked.concat {name : String} {r : ParserRuleDecl} (h : Linked scope own rules)
    (hnew : indexOf? rules name = none) (hr : libraryRule? scope name = some r) :
    Linked scope own (rules ++ [r]) := by
  obtain ⟨l, hl, hfind⟩ := Option.bind_eq_some_iff.mp hr
  have hname : r.name = name := by simpa using List.find?_some hfind
  have hfresh : ∀ r' ∈ rules, r'.name ≠ name := by
    intro r' hr'
    have hnone := List.findIdx?_eq_none_iff.mp (Option.map_eq_none_iff.mp hnew) r'
      (List.mem_reverse.mpr hr')
    simpa using hnone
  have hdrop : (rules ++ [r]).drop own.length = rules.drop own.length ++ [r] :=
    List.drop_append_of_le_length h.own_first.length_le
  refine ⟨h.own_first.trans (List.prefix_append rules [r]), ?_, ?_⟩
  · rw [hdrop, List.map_append]
    refine List.Nodup.append h.nodup (by simp) fun n hn hn' => ?_
    obtain ⟨r', hr', rfl⟩ := List.mem_map.mp hn
    have hsame : r'.name = r.name := by simpa using hn'
    exact hfresh r' (List.mem_of_mem_drop hr') (hsame.trans hname)
  · intro r' hr'
    rw [hdrop, List.mem_append, List.mem_singleton] at hr'
    rcases hr' with hr' | rfl
    · exact h.named r' hr'
    · exact ⟨l, hl, List.mem_of_find?_eq_some hfind⟩

/-! ## Rule numbers -/

/-- All of these numbers are below a bound. -/
def Below (n : Nat) (refs : List UInt32) : Prop := ∀ i ∈ refs, i.toNat < n

theorem below_nil (n : Nat) : Below n [] := fun _ hi => absurd hi List.not_mem_nil

theorem Below.mono {m n : Nat} {refs : List UInt32} (h : Below m refs) (hle : m ≤ n) :
    Below n refs :=
  fun i hi => Nat.lt_of_lt_of_le (h i hi) hle

theorem Below.append {n : Nat} {refs refs' : List UInt32} (h : Below n refs)
    (h' : Below n refs') : Below n (refs ++ refs') := by
  intro i hi
  rcases List.mem_append.mp hi with hi | hi
  · exact h i hi
  · exact h' i hi

/-- A step that gives a value keeps the list linked, and the value suits the number of rules that
are linked by then. -/
def Links (scope : Scope) (own : List ParserRuleDecl) (x : Linking α) (P : Nat → α → Prop) : Prop :=
  ∀ rules a rules', Linked scope own rules → x.run.run rules = (.ok a, rules') →
    rules <+: rules' ∧ Linked scope own rules' ∧ P rules'.length a

theorem links_pure {a : α} {P : Nat → α → Prop} (h : ∀ n, P n a) :
    Links scope own (pure a) P := by
  intro rules b rules' hrules hrun
  cases hrun
  exact ⟨List.prefix_rfl, hrules, h _⟩

theorem links_throw {e : CompileFault.Located} {P : Nat → α → Prop} :
    Links scope own (throw e) P := by
  intro rules b rules' hrules hrun
  cases hrun

/-- What the first step refers to is still there after the second one. -/
theorem Links.bind {x : Linking α} {f : α → Linking β} {refs : α → List UInt32}
    {P : Nat → β → Prop} (hx : Links scope own x fun n a => Below n (refs a))
    (hf : ∀ a, Links scope own (f a) fun n b => Below n (refs a) → P n b) :
    Links scope own (x >>= f) P := by
  intro rules b rules' hrules hrun
  rw [ExceptT.run_bind, StateT.run_bind] at hrun
  cases hstep : x.run.run rules with
  | mk outcome rules₁ =>
      rw [hstep] at hrun
      cases outcome with
      | error e => cases hrun
      | ok a =>
          obtain ⟨hgrown, hlinked, ha⟩ := hx rules a rules₁ hrules hstep
          obtain ⟨hgrown', hlinked', hb⟩ := hf a rules₁ b rules' hlinked hrun
          exact ⟨hgrown.trans hgrown', hlinked', hb (ha.mono hgrown'.length_le)⟩

theorem Links.map {x : Linking α} {refs : α → List UInt32} {f : α → β} {P : Nat → β → Prop}
    (hx : Links scope own x fun n a => Below n (refs a))
    (hf : ∀ n a, Below n (refs a) → P n (f a)) :
    Links scope own (x >>= fun a => pure (f a)) P :=
  hx.bind fun a => links_pure fun n ha => hf n a ha

theorem Links.mapM {f : α → Linking β} {refs : β → List UInt32} {xs : List α}
    (h : ∀ x ∈ xs, Links scope own (f x) fun n b => Below n (refs b)) :
    Links scope own (xs.mapM f) fun n bs => Below n (bs.flatMap refs) := by
  induction xs with
  | nil =>
      rw [List.mapM_nil]
      exact links_pure below_nil
  | cons x xs ih =>
      rw [List.mapM_cons]
      refine (h x List.mem_cons_self).bind fun b => ?_
      have hrest := ih fun y hy => h y (List.mem_cons_of_mem x hy)
      refine hrest.bind fun bs => links_pure fun n hbs hb => ?_
      rw [List.flatMap_cons]
      exact hb.append hbs

/-- A rule that is in the list keeps its number; a new one is put at the end. -/
theorem run_ruleIndex (name : String) (p : Position) :
    (ruleIndex scope name p).run.run rules =
      match indexOf? rules name with
      | some i => (.ok (UInt32.ofNat i), rules)
      | none =>
        match libraryRule? scope name with
        | none => (.error (p, .unknownRule name), rules)
        | some r => (.ok (UInt32.ofNat rules.length), rules ++ [r]) := by
  have hget : (ruleIndex scope name p).run.run rules = (ExceptT.run (m := StateM _) <|
      match indexOf? rules name with
      | some i => pure (UInt32.ofNat i)
      | none =>
        match libraryRule? scope name with
        | none => throw (p, CompileFault.unknownRule name)
        | some r => do
          set (rules ++ [r])
          return UInt32.ofNat rules.length).run rules := rfl
  rw [hget]
  cases indexOf? rules name with
  | some i => rfl
  | none => cases libraryRule? scope name <;> rfl

theorem links_ruleIndex (name : String) (p : Position) :
    Links scope own (ruleIndex scope name p) fun n i => Below n [i] := by
  intro rules i rules' hrules hrun
  have hnumber {j n : Nat} (hj : j < n) : Below n [UInt32.ofNat j] := by
    intro k hk
    rw [List.mem_singleton.mp hk]
    exact Nat.lt_of_le_of_lt (Automaton.toNat_ofNat_le j) hj
  rw [run_ruleIndex] at hrun
  split at hrun
  · next j hindex =>
    cases hrun
    exact ⟨List.prefix_rfl, hrules, hnumber (indexOf?_lt hindex)⟩
  · next hindex =>
    split at hrun
    · cases hrun
    · next r hrule =>
      cases hrun
      refine ⟨List.prefix_append rules [r], hrules.concat hindex hrule, hnumber ?_⟩
      rw [List.length_append, List.length_singleton]
      omega

theorem links_tokenType (name : String) (p : Position) :
    Links scope own (tokenType scope name p) fun n _ => Below n [] := by
  unfold tokenType
  split
  · exact links_pure below_nil
  · split
    · exact links_pure below_nil
    · exact links_throw

theorem links_literalType (text : String) (p : Position) :
    Links scope own (literalType scope text p) fun n _ => Below n [] := by
  unfold literalType
  split
  · exact links_pure below_nil
  · exact links_throw

/-! ## Expressions and bodies -/

theorem ruleRefsAll_eq_flatMap (es : List ParseExpr) :
    ParseExpr.ruleRefsAll es = es.flatMap ParseExpr.ruleRefs := by
  induction es with
  | nil => rfl
  | cons e rest ih => rw [ParseExpr.ruleRefsAll, ih, List.flatMap_cons]

theorem ruleRefs_sequenceOf (es : List ParseExpr) :
    (sequenceOf es).ruleRefs = ParseExpr.ruleRefsAll es := by
  match es with
  | [] => rfl
  | [e] => exact (List.append_nil e.ruleRefs).symm
  | e :: d :: rest => rfl

theorem ruleRefs_choiceOf (es : List ParseExpr) :
    (choiceOf es).ruleRefs = ParseExpr.ruleRefsAll es := by
  match es with
  | [] => rfl
  | [e] => exact (List.append_nil e.ruleRefs).symm
  | e :: d :: rest => rfl

theorem ruleRefs_repetitionOf (kind : Repetition) (e : ParseExpr) (greedy : Bool) :
    (repetitionOf kind e greedy).ruleRefs = e.ruleRefs := by
  cases kind <;> rfl

mutual
/-- The induction follows the lowering of nested expressions. -/
theorem lower_links : ∀ u : UnitExpr,
    Links scope own (lower scope u) fun n e => Below n e.ruleRefs
  | .empty => links_pure below_nil
  | .seq items => by
      rw [lower]
      exact (lowerAll_links items).map fun n es hes => ruleRefs_sequenceOf es ▸ hes
  | .choice items => by
      rw [lower]
      exact (lowerAll_links items).map fun n es hes => hes
  | .repeated kind isLazy body => by
      rw [lower]
      exact (lower_links body).map fun n e he => ruleRefs_repetitionOf kind e _ ▸ he
  | .literal text p => by
      rw [lower]
      exact (links_literalType text p).map fun n t _ => below_nil n
  | .token name p => by
      rw [lower]
      exact (links_tokenType name p).map fun n t _ => below_nil n
  | .notTokens names p => by
      rw [lower]
      exact (Links.mapM fun name _ => links_tokenType name p).map fun n ts _ => below_nil n
  | .any => links_pure below_nil
  | .eof => links_pure below_nil
  | .invoke name precedence p => by
      rw [lower]
      exact (links_ruleIndex name p).map fun n i hi => hi
  | .ref name p => links_throw
  | .ranges ranges negated => links_throw

theorem lowerAll_links : ∀ us : List UnitExpr,
    Links scope own (lowerAll scope us) fun n es => Below n (ParseExpr.ruleRefsAll es)
  | [] => links_pure below_nil
  | u :: us => by
      rw [lowerAll]
      refine (lower_links u).bind fun e => (lowerAll_links us).map fun n es hes he => ?_
      exact he.append hes
end

theorem lowerSequence_links (items : List UnitExpr) :
    Links scope own (lowerSequence scope items) fun n e => Below n e.ruleRefs :=
  (lowerAll_links items).map fun _ es hes => ruleRefs_sequenceOf es ▸ hes

theorem lowerAlternatives_links (alternatives : List (List UnitExpr)) :
    Links scope own (lowerAlternatives scope alternatives) fun n e => Below n e.ruleRefs := by
  have halternatives : Links scope own (alternatives.mapM (lowerSequence scope)) fun n es =>
      Below n (es.flatMap ParseExpr.ruleRefs) := Links.mapM fun items _ => lowerSequence_links items
  refine halternatives.map fun n es hes => ?_
  rwa [ruleRefs_choiceOf, ruleRefsAll_eq_flatMap]

theorem lowerBody_links (body : ParserRuleBody) :
    Links scope own (lowerBody scope body) fun n b => Below n b.ruleRefs := by
  cases body with
  | plain alternatives => exact (lowerAlternatives_links alternatives).map fun n e he => he
  | leftRecursive primaries suffixes =>
      have hsuffixes : Links scope own (suffixes.mapM (lowerSuffix scope)) fun n ss =>
          Below n (ss.flatMap fun s => s.body.ruleRefs) :=
        Links.mapM fun s _ => (lowerSequence_links s.2).map fun _ e he => he
      exact (lowerAlternatives_links primaries).bind fun e =>
        hsuffixes.map fun _ ss hss he => he.append hss

/-! ## All rules -/

theorem run_lowerRules (bound index : Nat) :
    (lowerRules scope (bound + 1) index).run rules =
      match rules[index]? with
      | none => ([], rules)
      | some r =>
        let lowered := (lowerBody scope r.body).run.run rules
        let others := (lowerRules scope bound (index + 1)).run lowered.2
        (lowered.1 :: others.1, others.2) := by
  have hget : (lowerRules scope (bound + 1) index).run rules = (match rules[index]? with
      | none => pure []
      | some r => do
        let body ← (lowerBody scope r.body).run
        return body :: (← lowerRules scope bound (index + 1)) :
        StateM (List ParserRuleDecl) _).run rules := rfl
  rw [hget]
  cases rules[index]? <;> rfl

/-- Where every rule from a number on is lowered, the list of rules stays linked, and if the bound
is large enough, there is a body for every rule that is in the list at the end. -/
theorem lowerRules_links {bound index : Nat} {bodies : List RuleBody}
    (hrules : Linked scope own rules) (hindex : index ≤ rules.length)
    (hrun : (lowerRules scope bound index).run rules = (bodies.map .ok, rules')) :
    rules <+: rules' ∧ Linked scope own rules' ∧
      (rules'.length ≤ index + bound → index + bodies.length = rules'.length) ∧
      ∀ b ∈ bodies, Below rules'.length b.ruleRefs := by
  induction bound generalizing index rules bodies with
  | zero =>
      obtain ⟨hbodies, rfl⟩ : [] = bodies.map Except.ok ∧ rules = rules' := Prod.mk.inj hrun
      obtain rfl := List.map_eq_nil_iff.mp hbodies.symm
      refine ⟨List.prefix_rfl, hrules, fun hbound => ?_, by simp⟩
      rw [List.length_nil]
      omega
  | succ bound ih =>
      rw [run_lowerRules] at hrun
      cases hr : rules[index]? with
      | none =>
          rw [hr] at hrun
          obtain ⟨hbodies, rfl⟩ : [] = bodies.map Except.ok ∧ rules = rules' := Prod.mk.inj hrun
          obtain rfl := List.map_eq_nil_iff.mp hbodies.symm
          have hend := List.getElem?_eq_none_iff.mp hr
          refine ⟨List.prefix_rfl, hrules, fun _ => ?_, by simp⟩
          rw [List.length_nil]
          omega
      | some r =>
          rw [hr] at hrun
          obtain ⟨hbodies, hothers⟩ := Prod.mk.inj hrun
          obtain ⟨b, rest, rfl, hb, hrest⟩ := List.map_eq_cons_iff.mp hbodies.symm
          obtain ⟨hgrown, hlinked, hbelow⟩ := lowerBody_links r.body rules b _ hrules
            (Prod.ext hb.symm rfl)
          have hstart := (List.getElem?_eq_some_iff.mp hr).1
          have hlength := hgrown.length_le
          obtain ⟨hgrown', hlinked', hcount, hrestBelow⟩ :=
            ih hlinked (by omega) (Prod.ext hrest.symm hothers)
          refine ⟨hgrown.trans hgrown', hlinked', fun hbound => ?_, ?_⟩
          · have htotal := hcount (by omega)
            rw [List.length_cons]
            omega
          · exact List.forall_mem_cons.mpr ⟨hbelow.mono hgrown'.length_le, hrestBelow⟩

/-! ## Images -/

/-- The images of rules are numbered from a given number on. -/
theorem ruleImages_eq_map (unit : String) (index : Nat) {rules : List ParserRuleDecl}
    {bodies : List RuleBody} (h : bodies.length = rules.length) :
    ∃ images : List ParserRuleImage,
      ruleImages unit index rules bodies =
        images.map (fun r => (innerName unit r.name, .parserRule r)) ∧
      images.map ParserRuleImage.name = rules.map ParserRuleDecl.name ∧
      images.map ParserRuleImage.body = bodies ∧
      images.map ParserRuleImage.index =
        (List.range' index rules.length).map UInt32.ofNat := by
  induction rules generalizing index bodies with
  | nil =>
      obtain rfl := List.length_eq_zero_iff.mp h
      exact ⟨[], rfl, rfl, rfl, rfl⟩
  | cons r rules ih =>
      cases bodies with
      | nil => cases h
      | cons b bodies =>
          obtain ⟨images, himages, hnames, hbodies, hindices⟩ := ih (index + 1) (Nat.succ.inj h)
          refine ⟨⟨r.name, UInt32.ofNat index, b⟩ :: images, ?_, ?_, ?_, ?_⟩
          · rw [ruleImages, himages, List.map_cons]
          · rw [List.map_cons, hnames, List.map_cons]
          · rw [List.map_cons, hbodies]
          · rw [List.map_cons, hindices, List.length_cons, List.range'_succ, List.map_cons]

/-- Images that are numbered from zero on bear the numbers of their places. -/
theorem toNat_index {images : List ParserRuleImage} {n : Nat} (hwords : n ≤ 2 ^ 32)
    (hindices : images.map ParserRuleImage.index = (List.range' 0 n).map UInt32.ofNat) {i : Nat}
    (hi : i < images.length) : images[i].index.toNat = i := by
  have hlength : images.length = n := by simpa using congrArg List.length hindices
  have hget : (images.map ParserRuleImage.index)[i]? =
      ((List.range' 0 n).map UInt32.ofNat)[i]? := by rw [hindices]
  rw [List.getElem?_map, List.getElem?_map, List.getElem?_eq_getElem hi,
    List.getElem?_range' (by omega)] at hget
  have hindex : images[i].index = UInt32.ofNat i := by simpa using hget
  rw [hindex, Automaton.toNat_address (by omega)]

/-- The images of rules in order of their numbers are taken over, as long as the numbers are
words. -/
theorem exists_loadBodies {header : ParserHeader} {images : List ParserRuleImage}
    (hstart : header.startRule.toNat < header.ruleNames.length)
    (hwords : header.ruleNames.length ≤ 2 ^ 32)
    (hnames : images.map ParserRuleImage.name = header.ruleNames)
    (hindices : images.map ParserRuleImage.index =
      (List.range' 0 header.ruleNames.length).map UInt32.ofNat)
    (hbelow : ∀ r ∈ images, Below header.ruleNames.length r.body.ruleRefs) :
    ∃ bodies, ParserProgram.loadBodies header images = .ok bodies := by
  have hlength : images.length = header.ruleNames.length := by
    rw [← hnames, List.length_map]
  have hnumber : ∀ (i : Nat) (hi : i < images.length), images[i].index.toNat = i :=
    fun i hi => toNat_index hwords hindices hi
  have hchecked : images.forM (ParserProgram.checkImage header.ruleNames) = .ok () := by
    refine forM_eq_ok.mpr fun r hr => ?_
    obtain ⟨i, hi, rfl⟩ := List.mem_iff_getElem.mp hr
    have hname : header.ruleNames[images[i].index.toNat]? = some images[i].name := by
      rw [hnumber i hi, ← hnames, List.getElem?_map, List.getElem?_eq_getElem hi]
      rfl
    have hrefs : (images[i].body.ruleRefs.find? fun index =>
        !decide (index.toNat < header.ruleNames.length)) = none := by
      rw [List.find?_eq_none]
      intro index hindex
      simpa using hbelow _ hr index hindex
    rw [ParserProgram.checkImage, ParserProgram.corruption?, if_pos hname, hrefs]
    rfl
  have hbodies : ∀ r ∈ header.ruleNames.zipIdx,
      ∃ body, ParserProgram.requireBody images r = .ok body := by
    rintro ⟨name, i⟩ hr
    have hi : i < images.length := by
      have hlt := (List.mem_zipIdx hr).2.1
      omega
    have hfound : (images.reverse.find? fun r => r.index.toNat == i).isSome = true := by
      rw [List.find?_isSome]
      refine ⟨images[i], List.mem_reverse.mpr (List.getElem_mem hi), ?_⟩
      rw [hnumber i hi, beq_self_eq_true]
    obtain ⟨found, hfound⟩ := Option.isSome_iff_exists.mp hfound
    exact ⟨found.body, by simp [ParserProgram.requireBody, ParserProgram.body?, hfound]⟩
  obtain ⟨bodies, hbodies⟩ := exists_mapM_eq_ok hbodies
  refine ⟨bodies, ?_⟩
  rw [ParserProgram.loadBodies, if_neg (by omega)]
  exact bind_eq_ok.mpr ⟨(), hchecked, hbodies⟩

/-- The images of a parser: its header, which lists the names and units of its rules and names a
vocabulary lexer, and the rules, which are taken over as long as their numbers are words. -/
def ParserImages (d : ParserDecl) (index : UnitIndex) (images : NamedImages) : Prop :=
  ∃ (header : ParserHeader) (rules : List ParserRuleImage),
    images = (d.name, .parserHeader header) ::
      rules.map (fun r => (innerName d.name r.name, .parserRule r)) ∧
    header.name = d.name ∧
    (∃ l : LexerDecl, UnitDecl.lexer l ∈ index ∧ l.name = header.vocabularyUnit) ∧
    header.ruleUnits = rules.map (fun r => innerName d.name r.name) ∧
    (header.ruleNames.length ≤ 2 ^ 32 →
      ∃ bodies, ParserProgram.loadBodies header rules = .ok bodies)

theorem mem_of_find? {index : UnitIndex} {name : String} {u : UnitDecl}
    (h : index.find? name = some u) : u ∈ index ∧ u.name = name :=
  ⟨List.mem_reverse.mp (List.mem_of_find?_eq_some h), by simpa using List.find?_some h⟩

theorem find?_eq_some_of_nodup {index : UnitIndex} {d : UnitDecl}
    (hnodup : (index.map UnitDecl.name).Nodup) (hd : d ∈ index) : index.find? d.name = some d := by
  have hreversed : (index.reverse.map UnitDecl.name).Nodup := by
    rw [List.map_reverse]
    exact List.nodup_reverse.mpr hnodup
  exact find?_key_of_mem hreversed (List.mem_reverse.mpr hd)

theorem exists_vocabularyLexer {d : ParserDecl} {index : UnitIndex} {l : LexerDecl}
    (h : d.vocabularyLexer index = .ok l) : .lexer l ∈ index ∧ l.name = d.vocabulary.name := by
  simp only [vocabularyLexer] at h
  split at h
  · next hfind =>
    cases h
    exact mem_of_find? hfind
  · cases h
  · cases h

theorem startRule_lt {d : ParserDecl} {start : Nat} (hne : rules ≠ [])
    (h : d.startRule rules = .ok start) : start < rules.length := by
  simp only [startRule] at h
  split at h
  · cases h
    exact List.length_pos_iff.mpr hne
  · split at h
    · next hindex =>
      cases h
      exact indexOf?_lt hindex
    · cases h

theorem compile_ne_error_nil {d : ParserDecl} {index : UnitIndex} :
    d.compile index ≠ .error [] := by
  intro h
  simp only [compile] at h
  split at h
  · injection h with h
    cases h
  · split at h
    · injection h with h
      cases h
    · split at h
      split at h
      · cases h
      · next hne =>
        injection h with h
        exact hne h
      · injection h with h
        exact absurd h (by simp)

/-- What a parser that compiles has been checked for. -/
theorem compile_cases {d : ParserDecl} {index : UnitIndex} {images : NamedImages}
    (h : d.compile index = .ok images) :
    ∃ lexer library results rules start, d.vocabularyLexer index = .ok lexer ∧
      baseLibrary d.base index = .ok library ∧ d.rules ≠ [] ∧
      (lowerRules ⟨lexer.tokens, library⟩ (d.ruleBound library) 0).run d.rules = (results, rules) ∧
      d.startRule rules = .ok start ∧ LexerDecl.faults results = [] ∧
      images = (d.name, .parserHeader (d.header rules start)) ::
        ruleImages d.name 0 rules (LexerDecl.values results) := by
  simp only [compile] at h
  split at h
  · cases h
  · next lexer library hfound =>
    obtain ⟨lexer', hlexer, hfound⟩ := bind_eq_ok.mp hfound
    obtain ⟨library', hlibrary, hfound⟩ := bind_eq_ok.mp hfound
    cases hfound
    split at h
    · cases h
    · next hne =>
      split at h
      next results rules hrun =>
      split at h
      · next start hstart hfaults =>
        cases h
        exact ⟨lexer, library, results, rules, start, hlexer, hlibrary, by simpa using hne, hrun,
          hstart, (List.append_eq_nil_iff.mp hfaults).2, rfl⟩
      · cases h
      · cases h

/-- A parser compiles to the images of its rules and of those that linking appends, numbered from
zero on. -/
theorem compile_bodies {d : ParserDecl} {index : UnitIndex} {images : NamedImages}
    (h : d.compile index = .ok images) :
    ∃ lexer library bodies rules start, d.vocabularyLexer index = .ok lexer ∧
      baseLibrary d.base index = .ok library ∧ d.rules ≠ [] ∧
      (lowerRules ⟨lexer.tokens, library⟩ (d.ruleBound library) 0).run d.rules =
        (bodies.map .ok, rules) ∧
      d.startRule rules = .ok start ∧ bodies.length = rules.length ∧
      images = (d.name, .parserHeader (d.header rules start)) ::
        ruleImages d.name 0 rules bodies := by
  obtain ⟨lexer, library, results, rules, start, hlexer, hlibrary, hne, hrun, hstart, hfaults,
    rfl⟩ := compile_cases h
  have hresults : results = (LexerDecl.values results).map .ok := by
    refine LexerDecl.eq_map_values fun e he => ?_
    have hmem := LexerDecl.mem_faults.mpr he
    rw [hfaults] at hmem
    exact absurd hmem List.not_mem_nil
  rw [hresults] at hrun
  obtain ⟨-, hlinked, hcount, -⟩ := lowerRules_links (linked_own _ _) (Nat.zero_le _) hrun
  have hlength : (LexerDecl.values results).length = rules.length := by
    have hle : rules.length ≤ d.ruleBound library := hlinked.length_le
    have htotal := hcount (by omega)
    omega
  exact ⟨lexer, library, _, rules, start, hlexer, hlibrary, hne, hrun, hstart, hlength, rfl⟩

theorem parserImages_of_compile {d : ParserDecl} {index : UnitIndex} {images : NamedImages}
    (h : d.compile index = .ok images) : d.ParserImages index images := by
  obtain ⟨lexer, library, bodies, rules, start, hlexer, -, hne, hrun, hstart, hlength, rfl⟩ :=
    compile_bodies h
  have hown : Linked ⟨lexer.tokens, library⟩ d.rules d.rules := linked_own _ _
  obtain ⟨hgrown, -, -, hbelow⟩ := lowerRules_links hown (Nat.zero_le _) hrun
  obtain ⟨images, himages, hnames, hbodies, hindices⟩ :=
    ruleImages_eq_map d.name 0 hlength
  have hrules : rules ≠ [] := by
    rintro rfl
    exact hne (List.prefix_nil.mp hgrown)
  refine ⟨d.header rules start, images, by rw [himages], rfl, ?_, ?_, fun hwords => ?_⟩
  · exact ⟨lexer, exists_vocabularyLexer hlexer⟩
  · have hunits := congrArg (List.map (innerName d.name)) hnames
    rw [List.map_map, List.map_map] at hunits
    exact hunits.symm
  · have hnumbers : (d.header rules start).ruleNames.length = rules.length := List.length_map _
    refine exists_loadBodies ?_ hwords hnames ?_ fun r hr => ?_
    · have hstart' := startRule_lt hrules hstart
      have hle := Automaton.toNat_ofNat_le start
      rw [hnumbers]
      exact Nat.lt_of_le_of_lt hle hstart'
    · rw [hnumbers]
      exact hindices
    · rw [hnumbers]
      refine hbelow r.body ?_
      rw [← hbodies]
      exact List.mem_map_of_mem hr

end GrammarEngine.ParserDecl
