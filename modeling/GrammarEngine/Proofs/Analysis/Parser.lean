import GrammarEngine.Analysis.Grammars
import GrammarEngine.Analysis.References
import GrammarEngine.Proofs.Analysis.Lexer
import GrammarEngine.Proofs.LeftRecursion.Parts

/-!
# Parsers of grammars

The rules of a parser are those of its grammar in order. Their elements name tokens of the
vocabulary and rules of the parser, and the precedences of a left-recursive rule are bounded by the
number of its alternatives.

## Resolved references

Resolving a parser rule adds tokens only behind those of the vocabulary, keeps their numbering, and
gives elements that name no other tokens than those of the vocabulary and no other rules than those
in scope. Since a vocabulary only grows, this remains so while further rules are resolved.
-/
namespace GrammarEngine.References

/-- An element whose tokens are in a vocabulary and whose rules are in scope. -/
inductive Closed (scope : Scope) (vocabulary : List TokenSpec) : Element → Prop
  | token {name : String} :
      LexerSpec.hasName vocabulary name = true → Closed scope vocabulary (.token name)
  | rule {name : String} : (scope.ruleNames.contains name || scope.lenient) = true →
      Closed scope vocabulary (.rule name)
  | ruleAt {name : String} (precedence : Nat) :
      (scope.ruleNames.contains name || scope.lenient) = true →
      Closed scope vocabulary (.ruleAt name precedence)
  | any : Closed scope vocabulary .any
  | eof : Closed scope vocabulary .eof
  | notTokens {names : List String} :
      (∀ name ∈ names, LexerSpec.hasName vocabulary name = true) →
      Closed scope vocabulary (.notTokens names)
  | block {alternatives : List Alternative} :
      (∀ a ∈ alternatives, ∀ e ∈ a.elements, Closed scope vocabulary e) →
      Closed scope vocabulary (.block alternatives)
  | repeated {e : Element} (kind : Repetition) (greedy : Bool) :
      Closed scope vocabulary e → Closed scope vocabulary (.repeated e kind greedy)

variable {scope : Scope} {vocabulary vocabulary' : List TokenSpec}

theorem hasName_mono {name : String} (hfront : vocabulary <+: vocabulary')
    (h : LexerSpec.hasName vocabulary name = true) :
    LexerSpec.hasName vocabulary' name = true := by
  obtain ⟨t, ht, hname⟩ := LexerSpec.hasName_iff.mp h
  exact LexerSpec.hasName_iff.mpr ⟨t, hfront.subset ht, hname⟩

theorem Closed.mono {e : Element} (h : Closed scope vocabulary e)
    (hfront : vocabulary <+: vocabulary') : Closed scope vocabulary' e := by
  induction h with
  | token hname => exact .token (hasName_mono hfront hname)
  | rule hname => exact .rule hname
  | ruleAt precedence hname => exact .ruleAt precedence hname
  | any => exact .any
  | eof => exact .eof
  | notTokens hnames => exact .notTokens fun name hn => hasName_mono hfront (hnames name hn)
  | block _ ih => exact .block ih
  | repeated kind greedy _ ih => exact .repeated kind greedy ih

/-! ### Steps -/

/-- A vocabulary that grew out of another one, which it may only where tokens can be implicit. -/
structure Grows (allowImplicit : Bool) (before after : List TokenSpec) : Prop where
  isPrefix : before <+: after
  numbered : LexerSpec.Numbered before → LexerSpec.Numbered after
  unchanged : allowImplicit = false → after = before

variable {α β : Type} {allowImplicit : Bool}

theorem Grows.refl (v : List TokenSpec) : Grows allowImplicit v v :=
  ⟨List.prefix_refl v, id, fun _ => rfl⟩

theorem Grows.trans {u v w : List TokenSpec} (h : Grows allowImplicit u v)
    (h' : Grows allowImplicit v w) : Grows allowImplicit u w where
  isPrefix := h.isPrefix.trans h'.isPrefix
  numbered := fun hu => h'.numbered (h.numbered hu)
  unchanged := fun hallow => (h'.unchanged hallow).trans (h.unchanged hallow)

/-- The vocabulary grows, and the value has a property that depends on the vocabulary reached. -/
def Resolves (allowImplicit : Bool) (x : Resolving α) (P : List TokenSpec → α → Prop) : Prop :=
  ∀ s a t, x s = .ok (a, t) → Grows allowImplicit s.vocabulary t.vocabulary ∧ P t.vocabulary a

/-- A property that further growth keeps. -/
def Stable (P : List TokenSpec → α → Prop) : Prop :=
  ∀ u v a, u <+: v → P u a → P v a

theorem resolves_pure {a : α} {P : List TokenSpec → α → Prop} (h : ∀ v, P v a) :
    Resolves allowImplicit (pure a) P := by
  intro s b t hrun
  obtain ⟨rfl, rfl⟩ : a = b ∧ s = t := Prod.mk.inj (Except.ok.inj hrun)
  exact ⟨Grows.refl _, h _⟩

theorem Resolves.bind {x : Resolving α} {f : α → Resolving β} {P : List TokenSpec → α → Prop}
    {Q : List TokenSpec → β → Prop} (hx : Resolves allowImplicit x P) (hP : Stable P)
    (hf : ∀ a, Resolves allowImplicit (f a) fun v b => P v a → Q v b) :
    Resolves allowImplicit (x >>= f) Q := by
  intro s b t hrun
  cases hstep : x s with
  | error fault => simp [Bind.bind, StateT.bind, hstep, Except.bind] at hrun
  | ok r =>
      obtain ⟨hgrow, ha⟩ := hx s r.1 r.2 hstep
      obtain ⟨hgrow', hb⟩ := hf r.1 r.2 b t (by
        simpa [Bind.bind, StateT.bind, hstep, Except.bind] using hrun)
      exact ⟨hgrow.trans hgrow', hb (hP _ _ _ hgrow'.isPrefix ha)⟩

theorem Resolves.mono {x : Resolving α} {P Q : List TokenSpec → α → Prop}
    (hx : Resolves allowImplicit x P) (h : ∀ v a, P v a → Q v a) :
    Resolves allowImplicit x Q := by
  intro s a t hrun
  obtain ⟨hgrow, ha⟩ := hx s a t hrun
  exact ⟨hgrow, h _ _ ha⟩

theorem resolves_throw {fault : RuleFault} {P : List TokenSpec → α → Prop} :
    Resolves allowImplicit (throw fault : Resolving α) P := by
  intro s a t hrun
  cases hrun

/-! ### Tokens -/

def NamesToken (vocabulary : List TokenSpec) (name : String) : Prop :=
  LexerSpec.hasName vocabulary name = true

theorem stable_namesToken : Stable NamesToken :=
  fun _ _ _ hgrow h => hasName_mono hgrow h

theorem literalToken_resolves (text : String) :
    Resolves allowImplicit (literalToken text) NamesToken := by
  intro s name t hrun
  have hfind : ∃ found ∈ s.vocabulary, found.name = name ∧ s = t := by
    unfold literalToken at hrun
    cases hfound : s.vocabulary.find? (fun t => t.literal == some text) with
    | none => simp [bind, StateT.bind, get, getThe, MonadStateOf.get, StateT.get, pure, Except.pure,
        Except.bind, hfound, throw, throwThe, MonadExceptOf.throw, StateT.lift] at hrun
    | some found =>
        refine ⟨found, List.mem_of_find?_eq_some hfound, ?_⟩
        simpa [bind, StateT.bind, get, getThe, MonadStateOf.get, StateT.get, pure, Except.pure,
          Except.bind, stateT_pure, hfound] using hrun
  obtain ⟨found, hmem, hname, rfl⟩ := hfind
  exact ⟨Grows.refl _, LexerSpec.hasName_iff.mpr ⟨found, hmem, hname⟩⟩

theorem token_resolves (scope : Scope) (name : String) :
    Resolves scope.allowImplicit (token scope name) NamesToken := by
  intro s found t hrun
  unfold token at hrun
  cases hname : LexerSpec.hasName s.vocabulary name with
  | true =>
      obtain ⟨rfl, rfl⟩ : name = found ∧ s = t := by
        simpa [bind, StateT.bind, get, getThe, MonadStateOf.get, StateT.get, pure, Except.pure,
          Except.bind, stateT_pure, hname] using hrun
      exact ⟨Grows.refl _, hname⟩
  | false =>
      cases hallow : scope.allowImplicit with
      | false => simp [bind, StateT.bind, get, getThe, MonadStateOf.get, StateT.get, pure,
          Except.pure, Except.bind, hname, hallow, throw, throwThe, MonadExceptOf.throw,
          StateT.lift] at hrun
      | true =>
          obtain ⟨rfl, rfl⟩ : name = found ∧
              State.mk (LexerSpec.addToken s.vocabulary name none) (s.added ++ [name]) = t := by
            simpa [bind, StateT.bind, get, getThe, MonadStateOf.get, StateT.get, pure, Except.pure,
              Except.bind, stateT_pure, set, MonadStateOf.set, stateT_set, hname, hallow] using hrun
          refine ⟨⟨List.prefix_append _ _, fun h => LexerSpec.numbered_addToken h _ _, ?_⟩, ?_⟩
          · intro hnone
            cases hnone
          · have hlast {t : TokenSpec} : t ∈ s.vocabulary ++ [t] :=
              List.mem_append_right _ (by simp)
            exact LexerSpec.hasName_iff.mpr ⟨_, hlast, rfl⟩

theorem member_resolves (scope : Scope) (e : Element) :
    Resolves scope.allowImplicit (member scope e) NamesToken := by
  unfold member
  split
  · exact literalToken_resolves _
  · exact token_resolves scope _
  · exact resolves_throw

theorem mapM_resolves {f : β → Resolving α} {P : List TokenSpec → α → Prop} (hP : Stable P)
    {xs : List β} (h : ∀ x ∈ xs, Resolves allowImplicit (f x) P) :
    Resolves allowImplicit (xs.mapM f) fun v ys => ∀ y ∈ ys, P v y := by
  induction xs with
  | nil => exact resolves_pure (by simp)
  | cons x xs ih =>
      rw [List.mapM_cons]
      refine (h x List.mem_cons_self).bind hP fun y => ?_
      refine (ih fun z hz => h z (List.mem_cons_of_mem x hz)).bind
        (fun u v ys hgrow hys y hy => hP u v y hgrow (hys y hy)) fun ys => ?_
      exact resolves_pure fun v hys hy => List.forall_mem_cons.mpr ⟨hy, hys⟩

/-! ### Elements -/

/-- A resolved element of a parser rule. -/
def Sound (scope : Scope) (depth : Nat) (vocabulary : List TokenSpec) (e : Element) : Prop :=
  e.Within 1 depth ∧ Closed scope vocabulary e

theorem stable_sound {depth : Nat} : Stable (Sound scope depth) :=
  fun _ _ _ hgrow h => ⟨h.1, h.2.mono hgrow⟩

theorem stable_sounds {depth : Nat} :
    Stable fun v (es : List Element) => ∀ e ∈ es, Sound scope depth v e :=
  fun u v _ hgrow h e he => stable_sound u v e hgrow (h e he)

mutual
/-- The induction follows the nesting of blocks. Only a repetition is resolved to one. -/
theorem resolve_resolves (scope : Scope) : ∀ (e : Element) {depth : Nat}, e.Within 0 depth →
    Resolves scope.allowImplicit (resolve scope e) fun v e' =>
      Sound scope depth v e' ∧ (e.NotRepeated → e'.NotRepeated)
  | .literal text, _, _ => by
      rw [resolve]
      refine (literalToken_resolves text).bind stable_namesToken fun name => ?_
      exact resolves_pure fun v hname => ⟨⟨.token _ name, .token hname⟩, fun _ => nofun⟩
  | .token name, _, _ => by
      rw [resolve]
      refine (token_resolves scope name).bind stable_namesToken fun name => ?_
      exact resolves_pure fun v hname => ⟨⟨.token _ name, .token hname⟩, fun _ => nofun⟩
  | .rule name, _, _ => by
      rw [resolve]
      split
      · next hname => exact resolves_pure fun v => ⟨⟨.rule _ name, .rule hname⟩, fun _ => nofun⟩
      · exact resolves_throw
  | .ruleAt name precedence, _, h => by
      cases h with
      | ruleAt _ hlt => exact absurd hlt (Nat.not_lt_zero _)
  | .charSet ranges negated, _, _ => by
      rw [resolve]
      exact resolves_throw
  | .any, _, _ => by
      rw [resolve]
      exact resolves_pure fun v => ⟨⟨.any _, .any⟩, fun _ => nofun⟩
  | .eof, _, _ => by
      rw [resolve]
      exact resolves_pure fun v => ⟨⟨.eof _, .eof⟩, fun _ => nofun⟩
  | .notTokens names, _, h => by
      cases h with
      | notTokens _ _ hlt => exact absurd hlt (Nat.not_lt_zero _)
  | .not members, _, _ => by
      rw [resolve]
      refine (mapM_resolves stable_namesToken fun m _ => member_resolves scope m).bind
        (fun u v _ hgrow h n hn => stable_namesToken u v n hgrow (h n hn)) fun names => ?_
      exact resolves_pure fun v hnames =>
        ⟨⟨.notTokens _ names Nat.one_pos, .notTokens hnames⟩, fun _ => nofun⟩
  | .block alternatives, _, h => by
      cases h with
      | block hwithin =>
          rw [resolve]
          refine (resolveAlternatives_resolves scope alternatives hwithin).bind
            (fun u v _ hgrow h a ha => stable_sounds u v a.elements hgrow (h a ha)) fun found => ?_
          exact resolves_pure fun v hfound =>
            ⟨⟨.block fun a ha e he => (hfound a ha e he).1,
              .block fun a ha e he => (hfound a ha e he).2⟩, fun _ => nofun⟩
  | .repeated e kind greedy, _, h => by
      cases h with
      | repeated _ _ he hne =>
          rw [resolve]
          refine (resolve_resolves scope e he).bind
            (fun u v d hgrow h => ⟨stable_sound u v d hgrow h.1, h.2⟩) fun found => ?_
          exact resolves_pure fun v hfound =>
            ⟨⟨.repeated kind greedy hfound.1.1 (hfound.2 hne), .repeated kind greedy hfound.1.2⟩,
              fun h => absurd rfl (h e kind greedy)⟩

theorem resolveAll_resolves (scope : Scope) : ∀ (es : List Element) {depth : Nat},
    (∀ e ∈ es, e.Within 0 depth) →
    Resolves scope.allowImplicit (resolveAll scope es) fun v es' => ∀ e ∈ es', Sound scope depth v e
  | [], _, _ => resolves_pure (by simp)
  | e :: es, _, h => by
      rw [resolveAll]
      refine (resolve_resolves scope e (h e List.mem_cons_self)).bind
        (fun u v d hgrow h => ⟨stable_sound u v d hgrow h.1, h.2⟩) fun found => ?_
      refine (resolveAll_resolves scope es fun d hd => h d (List.mem_cons_of_mem e hd)).bind
        stable_sounds fun rest => ?_
      exact resolves_pure fun v hrest hfound => List.forall_mem_cons.mpr ⟨hfound.1, hrest⟩

theorem resolveAlternative_resolves (scope : Scope) : ∀ (a : AlternativeOf Element) {depth : Nat},
    (∀ e ∈ a.elements, e.Within 0 depth) →
    Resolves scope.allowImplicit (resolveAlternative scope a) fun v a' =>
      ∀ e ∈ a'.elements, Sound scope depth v e
  | ⟨elements, _, _, _⟩, _, h => by
      rw [resolveAlternative]
      refine (resolveAll_resolves scope elements h).bind stable_sounds fun found => ?_
      exact resolves_pure fun v hfound => hfound

theorem resolveAlternatives_resolves (scope : Scope) :
    ∀ (alternatives : List (AlternativeOf Element)) {depth : Nat},
    (∀ a ∈ alternatives, ∀ e ∈ a.elements, e.Within 0 depth) →
    Resolves scope.allowImplicit (resolveAlternatives scope alternatives) fun v alternatives' =>
      ∀ a ∈ alternatives', ∀ e ∈ a.elements, Sound scope depth v e
  | [], _, _ => resolves_pure (by simp)
  | a :: rest, _, h => by
      rw [resolveAlternatives]
      refine (resolveAlternative_resolves scope a (h a List.mem_cons_self)).bind
        (fun u v b hgrow h => stable_sounds u v b.elements hgrow h) fun found => ?_
      refine (resolveAlternatives_resolves scope rest fun b hb =>
        h b (List.mem_cons_of_mem a hb)).bind
        (fun u v _ hgrow h b hb => stable_sounds u v b.elements hgrow (h b hb)) fun others => ?_
      exact resolves_pure fun v hothers hfound => List.forall_mem_cons.mpr ⟨hfound, hothers⟩
end

/-- A resolved alternative of a rule, which has no commands. -/
def SoundAlternative (scope : Scope) (depth : Nat) (vocabulary : List TokenSpec)
    (a : Alternative) : Prop :=
  a.commands = [] ∧ ∀ e ∈ a.elements, Sound scope depth vocabulary e

theorem stable_soundAlternative {depth : Nat} : Stable (SoundAlternative scope depth) :=
  fun u v a hgrow h => ⟨h.1, stable_sounds u v a.elements hgrow h.2⟩

theorem ruleAlternatives_resolves (scope : Scope) {r : Rule} (h : r.FromFile) :
    Resolves scope.allowImplicit (ruleAlternatives scope r) fun v alternatives =>
      ∀ a ∈ alternatives, SoundAlternative scope Reading.maxBlockDepth v a := by
  refine mapM_resolves stable_soundAlternative fun a ha => ?_
  refine (resolveAlternative_resolves scope a (h.2 a ha)).bind
    (fun u v b hgrow h => stable_sounds u v b.elements hgrow h) fun found => ?_
  exact resolves_pure fun v hfound => ⟨rfl, hfound⟩

end GrammarEngine.References

/-! ## Rules of parsers -/

namespace GrammarEngine

namespace ParserRuleSpec

/-- The number of alternatives of a rule. -/
def size : ParserRuleSpec → Nat
  | plain _ alternatives => alternatives.length
  | leftRecursive _ primaries suffixes => primaries.length + suffixes.length

/-- The elements of the alternatives of a rule. -/
def parts : ParserRuleSpec → List (List Element)
  | plain _ alternatives => alternatives.map AlternativeOf.elements
  | leftRecursive _ primaries suffixes =>
    primaries.map AlternativeOf.elements ++ suffixes.map SuffixSpec.elements

/-- A rule of a parser over a vocabulary. -/
structure Sound (scope : References.Scope) (vocabulary : List TokenSpec) (r : ParserRuleSpec) :
    Prop where
  within : ∀ es ∈ r.parts, ∀ e ∈ es, e.Within (r.size + 2) Reading.maxBlockDepth
  closed : ∀ es ∈ r.parts, ∀ e ∈ es, References.Closed scope vocabulary e
  commands : ∀ a ∈ r.leading, a.commands = []
  suffixes : ∀ name primaries suffixes, r = .leftRecursive name primaries suffixes →
    primaries ≠ [] ∧ ∀ s ∈ suffixes, s.precedence ≤ r.size

theorem Sound.mono {scope : References.Scope} {vocabulary vocabulary' : List TokenSpec}
    {r : ParserRuleSpec} (h : r.Sound scope vocabulary) (hfront : vocabulary <+: vocabulary') :
    r.Sound scope vocabulary' :=
  { h with closed := fun es hes e he => (h.closed es hes e he).mono hfront }

/-- Such a rule can be written if its precedences are words. -/
theorem Sound.writable {scope : References.Scope} {vocabulary : List TokenSpec}
    {r : ParserRuleSpec} (h : r.Sound scope vocabulary) (hsize : r.size + 1 < 2 ^ 32) :
    r.Writable := by
  have hwritable : ∀ es ∈ r.parts, ∀ e ∈ es, e.Writable := fun es hes e he =>
    (h.within es hes e he).mono hsize
  cases r with
  | plain name alternatives =>
      exact fun a ha => ⟨h.commands a ha, hwritable _ (List.mem_map_of_mem ha)⟩
  | leftRecursive name primaries suffixes =>
      obtain ⟨hne, hprecedence⟩ := h.suffixes name primaries suffixes rfl
      refine ⟨hne, fun a ha => ⟨h.commands a ha, ?_⟩, fun s hs => ⟨?_, ?_⟩⟩
      · exact hwritable _ (List.mem_append_left _ (List.mem_map_of_mem ha))
      · have hle := hprecedence s hs
        omega
      · exact hwritable _ (List.mem_append_right _ (List.mem_map_of_mem hs))

end ParserRuleSpec

namespace LeftRecursion

variable {name : String} {alternatives : List Alternative}

theorem length_partsOf {parts : List Part} (h : partsOf name alternatives = .ok parts) :
    parts.length = alternatives.length := by
  induction alternatives generalizing parts with
  | nil =>
      cases h
      rfl
  | cons a rest ih =>
      simp only [partsOf, bind_eq_ok, pure, Except.pure, Except.ok.injEq] at h
      obtain ⟨part, -, others, hothers, rfl⟩ := h
      rw [List.length_cons, List.length_cons, ih hothers]

theorem length_getLeft?_add_length_getRight? {α β : Type} (parts : List (α ⊕ β)) :
    (parts.filterMap Sum.getLeft?).length + (parts.filterMap Sum.getRight?).length =
      parts.length := by
  induction parts with
  | nil => rfl
  | cons part parts ih =>
      cases part <;> simp only [List.filterMap_cons, Sum.getLeft?, Sum.getRight?,
        List.length_cons] <;> omega

/-- The rewrite keeps the name of a rule and the number of its alternatives, and a left-recursive
rule has a primary. -/
theorem eliminate_shape {spec : ParserRuleSpec} (h : eliminate name alternatives = .ok spec) :
    spec.name = name ∧ spec.size = alternatives.length ∧
      ∀ n primaries suffixes, spec = .leftRecursive n primaries suffixes → primaries ≠ [] := by
  unfold eliminate at h
  split at h
  · obtain rfl := Except.ok.inj h
    exact ⟨rfl, rfl, nofun⟩
  · obtain ⟨parts, hparts, h⟩ := bind_eq_ok.mp h
    dsimp only at h
    split at h
    · cases h
    · next hne =>
      obtain rfl := Except.ok.inj h
      refine ⟨rfl, ?_, ?_⟩
      · exact (length_getLeft?_add_length_getRight? parts).trans (length_partsOf hparts)
      · rintro _ _ _ ⟨rfl, rfl, rfl⟩ hempty
        exact hne (by rw [hempty]; rfl)

/-- An element of a marked alternative is one of the alternative, or the reference to the rule at
its end with a precedence. -/
theorem mem_markOperand {precedence : Nat} {a : Alternative} {e : Element}
    (h : e ∈ (markOperand name precedence a).elements) :
    e ∈ a.elements ∨ .rule name ∈ a.elements ∧
      ∃ p, p ≤ precedence + 1 ∧ e = .ruleAt name p := by
  rcases markOperand_cases name precedence a with ⟨-, ha⟩ | ⟨init, -, hinit, hmarked⟩
  · exact .inl (ha ▸ h)
  · rw [hmarked] at h
    rcases List.mem_append.mp h with h | h
    · exact .inl (hinit ▸ List.mem_append_left _ h)
    · refine .inr ⟨hinit ▸ List.mem_append_right _ List.mem_cons_self, _,
        (operandPrecedence_le name precedence a).2, List.mem_singleton.mp h⟩

theorem Stands.le {precedence : Nat} {a : Alternative} (h : Stands alternatives precedence a) :
    precedence ≤ alternatives.length := by
  obtain ⟨front, back, rfl, rfl⟩ := h
  simp

/-- The elements of a rewritten rule are those of its alternatives, and references to the rule with
a precedence. -/
theorem mem_parts_of_eliminate {spec : ParserRuleSpec} (h : eliminate name alternatives = .ok spec)
    {es : List Element} (hes : es ∈ spec.parts) {e : Element} (he : e ∈ es) :
    ∃ a ∈ alternatives, e ∈ a.elements ∨
      .rule name ∈ a.elements ∧ ∃ p, p ≤ alternatives.length + 1 ∧ e = .ruleAt name p := by
  have hmarked : ∀ {precedence : Nat} {a : Alternative}, Stands alternatives precedence a →
      e ∈ (markOperand name precedence a).elements → e ∈ a.elements ∨
        .rule name ∈ a.elements ∧ ∃ p, p ≤ alternatives.length + 1 ∧ e = .ruleAt name p := by
    intro precedence a hstands he
    rcases mem_markOperand he with he | ⟨hself, p, hp, rfl⟩
    · exact .inl he
    · exact .inr ⟨hself, p, hp.trans (Nat.succ_le_succ hstands.le), rfl⟩
  cases eliminated_of_eliminate h with
  | plain _ =>
      obtain ⟨a, ha, rfl⟩ := List.mem_map.mp hes
      exact ⟨a, ha, .inl he⟩
  | leftRecursive hprimaries hsuffixes =>
      rcases List.mem_append.mp hes with hes | hes
      · obtain ⟨b, hb, rfl⟩ := List.mem_map.mp hes
        obtain ⟨precedence, a, hstands, -, rfl⟩ := (hprimaries b).mp hb
        exact ⟨a, hstands.mem, hmarked hstands he⟩
      · obtain ⟨s, hs, rfl⟩ := List.mem_map.mp hes
        obtain ⟨precedence, a, rest, hstands, -, -, rfl⟩ := (hsuffixes s).mp hs
        exact ⟨a, hstands.mem, hmarked hstands (List.mem_of_mem_drop he)⟩

/-- Rewriting a rule keeps it over its vocabulary. -/
theorem eliminate_sound {scope : References.Scope} {vocabulary : List TokenSpec}
    {spec : ParserRuleSpec} (h : eliminate name alternatives = .ok spec)
    (hsound : ∀ a ∈ alternatives,
      References.SoundAlternative scope Reading.maxBlockDepth vocabulary a) :
    spec.Sound scope vocabulary := by
  obtain ⟨-, hsize, hprimary⟩ := eliminate_shape h
  have hparts : ∀ es ∈ spec.parts, ∀ e ∈ es,
      e.Within (spec.size + 2) Reading.maxBlockDepth ∧
        References.Closed scope vocabulary e := by
    intro es hes e he
    obtain ⟨a, ha, he | ⟨hself, p, hp, rfl⟩⟩ := mem_parts_of_eliminate h hes he
    · obtain ⟨hwithin, hclosed⟩ := (hsound a ha).2 e he
      exact ⟨hwithin.mono (by omega), hclosed⟩
    · obtain ⟨-, hclosed⟩ := (hsound a ha).2 _ hself
      cases hclosed with
      | rule hname => exact ⟨.ruleAt name (by omega), .ruleAt p hname⟩
  refine {
    within := fun es hes e he => (hparts es hes e he).1
    closed := fun es hes e he => (hparts es hes e he).2
    commands := ?commands, suffixes := ?suffixes }
  case commands =>
    cases eliminated_of_eliminate h with
    | plain _ => exact fun a ha => (hsound a ha).1
    | leftRecursive hprimaries hsuffixes =>
        intro b hb
        obtain ⟨precedence, a, hstands, -, rfl⟩ := (hprimaries b).mp hb
        rw [commands_markOperand, (hsound a hstands.mem).1]
  case suffixes =>
    cases eliminated_of_eliminate h with
    | plain _ => nofun
    | @leftRecursive primaries suffixes _ hsuffixes =>
        rintro _ _ _ ⟨rfl, rfl, rfl⟩
        refine ⟨hprimary name primaries suffixes rfl, fun s hs => ?_⟩
        obtain ⟨precedence, a, rest, hstands, -, -, rfl⟩ := (hsuffixes s).mp hs
        rw [hsize]
        exact hstands.le

end LeftRecursion

namespace Analysis

/-! ### Building -/

/-- What a rule of a grammar becomes in a parser over a vocabulary. -/
def BuiltRule (scope : References.Scope) (vocabulary : List TokenSpec) (r : Rule)
    (spec : ParserRuleSpec) : Prop :=
  spec.name = r.name ∧ spec.Sound scope vocabulary

theorem addParserRule_built {g : Grammar} {scope : References.Scope} {built built' : ParserRules}
    {r : Rule} (hr : r.FromFile) (h : addParserRule g scope built r = .ok built') :
    References.Grows scope.allowImplicit built.vocabulary built'.vocabulary ∧
      ∃ spec, built'.specs = built.specs ++ [spec] ∧ BuiltRule scope built'.vocabulary r spec := by
  unfold addParserRule at h
  dsimp only at h
  split at h
  · cases h
  · next spec s hresolved =>
    obtain rfl := Except.ok.inj h
    obtain ⟨⟨alternatives, s'⟩, hrun, hresolved⟩ := bind_eq_ok.mp hresolved
    obtain ⟨spec', heliminate, hresolved⟩ := bind_eq_ok.mp hresolved
    obtain ⟨rfl, rfl⟩ := Prod.mk.inj (Except.ok.inj hresolved)
    obtain ⟨hgrow, halternatives⟩ :=
      References.ruleAlternatives_resolves scope hr _ _ _ hrun
    refine ⟨hgrow, spec', rfl, (LeftRecursion.eliminate_shape heliminate).1, ?_⟩
    exact LeftRecursion.eliminate_sound heliminate halternatives

/-- The rules of a grammar are built in order, all over the vocabulary that is reached. -/
theorem addParserRules_built {g : Grammar} {scope : References.Scope} {rules : List Rule}
    {built built' : ParserRules} (hrules : ∀ r ∈ rules, r.FromFile)
    (h : rules.foldlM (addParserRule g scope) built = .ok built') :
    References.Grows scope.allowImplicit built.vocabulary built'.vocabulary ∧
      ∃ specs, built'.specs = built.specs ++ specs ∧
        List.Forall₂ (BuiltRule scope built'.vocabulary) rules specs := by
  induction rules generalizing built with
  | nil =>
      obtain rfl := Except.ok.inj h
      exact ⟨References.Grows.refl _, [], (List.append_nil _).symm, .nil⟩
  | cons r rules ih =>
      rw [List.foldlM_cons, bind_eq_ok] at h
      obtain ⟨middle, hmiddle, h⟩ := h
      obtain ⟨hgrow, spec, hspec, hbuilt⟩ :=
        addParserRule_built (hrules r List.mem_cons_self) hmiddle
      obtain ⟨hgrow', specs, hspecs, hrest⟩ :=
        ih (fun q hq => hrules q (List.mem_cons_of_mem r hq)) h
      refine ⟨hgrow.trans hgrow', spec :: specs, ?_, .cons ⟨hbuilt.1, ?_⟩ hrest⟩
      · rw [hspecs, hspec, List.append_assoc, List.singleton_append]
      · exact hbuilt.2.mono hgrow'.isPrefix

/-- The scope of the rules of a parser. -/
def scopeOf (g : Grammar) (rules : List Rule) (allowImplicit : Bool) : References.Scope :=
  ⟨rules.map Rule.name, (g.option? "superClass").isSome, allowImplicit⟩

/-- What the parser of a grammar is made of, and the lexer whose vocabulary it completes. -/
structure BuiltParser (g : Grammar) (unit : String) (rules : List Rule) (lexer : LexerSpec)
    (allowImplicit : Bool) (parser : ParserSpec) (lexer' : LexerSpec) : Prop where
  distinct : g.checkDuplicates rules = .ok ()
  unit : parser.unit = unit
  grammar : parser.grammar = g.name
  base : parser.extends = g.option? "superClass"
  vocabularyUnit : parser.vocabularyUnit = lexer.unit
  start : parser.rules.head?.map ParserRuleSpec.name = some parser.startRule
  acyclic : LeftRecursion.cycle? parser.rules = none
  completes : lexer' = { lexer with vocabulary := lexer'.vocabulary }
  grows : References.Grows allowImplicit lexer.vocabulary lexer'.vocabulary
  rules : List.Forall₂ (BuiltRule (scopeOf g rules allowImplicit) lexer'.vocabulary)
    rules parser.rules

/-- A parser has the rules that are built one after another, if there are any and none of them is
left-recursive through others. -/
theorem exists_of_buildParser {g : Grammar} {unit : String} {rules : List Rule} {lexer : LexerSpec}
    {allowImplicit : Bool} {parser : ParserSpec} {lexer' : LexerSpec} {warnings : List Warning}
    (h : buildParser g unit rules lexer allowImplicit = .ok (parser, lexer', warnings)) :
    ∃ built first, g.checkDuplicates rules = .ok () ∧
      rules.foldlM (addParserRule g (scopeOf g rules allowImplicit)) ⟨[], lexer.vocabulary, []⟩ =
        .ok built ∧
      LeftRecursion.cycle? built.specs = none ∧ built.specs.head? = some first ∧
      parser = { unit, grammar := g.name, «extends» := g.option? "superClass"
                 vocabularyUnit := lexer.unit, startRule := first.name, rules := built.specs } ∧
      lexer' = { lexer with vocabulary := built.vocabulary } := by
  unfold buildParser at h
  obtain ⟨_, hdistinct, h⟩ := bind_eq_ok.mp h
  obtain ⟨built, hbuilt, h⟩ := bind_eq_ok.mp h
  cases hcycle : LeftRecursion.cycle? built.specs with
  | some path =>
      rw [hcycle] at h
      cases h
  | none =>
      rw [hcycle] at h
      dsimp only at h
      split at h
      · cases h
      · next first rest hfirst =>
        obtain ⟨rfl, hpair⟩ := Prod.mk.inj (Except.ok.inj h)
        obtain ⟨rfl, -⟩ := Prod.mk.inj hpair
        exact ⟨built, first, hdistinct, hbuilt, hcycle, by rw [hfirst]; rfl, rfl, rfl⟩

theorem built_of_buildParser {g : Grammar} {unit : String} {rules : List Rule} {lexer : LexerSpec}
    {allowImplicit : Bool} {parser : ParserSpec} {lexer' : LexerSpec} {warnings : List Warning}
    (hrules : ∀ r ∈ rules, r.FromFile)
    (h : buildParser g unit rules lexer allowImplicit = .ok (parser, lexer', warnings)) :
    BuiltParser g unit rules lexer allowImplicit parser lexer' := by
  obtain ⟨built, first, hdistinct, hbuilt, hcycle, hfirst, rfl, rfl⟩ := exists_of_buildParser h
  obtain ⟨hgrow, specs, hspecs, hall⟩ := addParserRules_built hrules hbuilt
  rw [List.nil_append] at hspecs
  exact {
    distinct := hdistinct, unit := rfl, grammar := rfl, base := rfl, vocabularyUnit := rfl
    start := by rw [hfirst]; rfl
    acyclic := hcycle, completes := rfl, grows := hgrow
    rules := hspecs ▸ hall }

end Analysis

end GrammarEngine
