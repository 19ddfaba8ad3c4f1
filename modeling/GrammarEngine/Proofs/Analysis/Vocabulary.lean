import GrammarEngine.Proofs.Analysis.Imports
import GrammarEngine.Proofs.Analysis.Lexer
import Mathlib.Data.List.Nodup

/-!
# Vocabularies

The names of a vocabulary are the first occurrences in a list of names: of the implicit tokens, of
the declared ones, of the token rules and of what is added later. Types count the entries from one.
An implicit token has the literal that it was made for, every other entry that of the token rules
of its name.
-/
namespace GrammarEngine.LexerSpec

variable {vocabulary : List TokenSpec} {name : String} {names : List String}

/-- The types count the entries from one. -/
def Counted (vocabulary : List TokenSpec) : Prop :=
  vocabulary.map TokenSpec.type = List.range' 1 vocabulary.length

theorem hasName_iff_mem :
    hasName vocabulary name = true ↔ name ∈ vocabulary.map TokenSpec.name := by
  rw [hasName_iff, List.mem_map]

theorem map_name_addToken (literal : Option String) :
    (addToken vocabulary name literal).map TokenSpec.name =
      vocabulary.map TokenSpec.name ++ [name] := by
  rw [addToken, List.map_append, List.map_singleton]

theorem counted_addToken (h : Counted vocabulary) (literal : Option String) :
    Counted (addToken vocabulary name literal) := by
  rw [Counted, length_addToken, List.range'_concat, ← h, addToken, List.map_append,
    List.map_singleton, Nat.one_mul, Nat.add_comm 1]

/-! ## Implicit tokens -/

/-- The name of the implicit token of a number. -/
def implicitName (i : Nat) : String := s!"T__{i}"

theorem implicitName_injective : Function.Injective implicitName := by
  intro i j h
  have hdigits : Nat.toDigits 10 i = Nat.toDigits 10 j := by
    have hlist := congrArg String.toList h
    simpa [implicitName, Nat.toString_eq_ofList_toDigits] using hlist
  calc
    i = Nat.ofDigitChars 10 (Nat.toDigits 10 i) 0 := Nat.ofDigitChars_ten_toDigits.symm
    _ = Nat.ofDigitChars 10 (Nat.toDigits 10 j) 0 := by rw [hdigits]
    _ = j := Nat.ofDigitChars_ten_toDigits

theorem implicitTokens_eq (literals : List String) :
    implicitTokens literals =
      literals.mapIdx fun i l => ⟨i + 1, implicitName i, some l⟩ := by
  induction literals using List.reverseRecOn with
  | nil => rfl
  | append_singleton literals l ih =>
      have hlength : (implicitTokens literals).length = literals.length := by
        rw [ih, List.length_mapIdx]
      rw [List.mapIdx_concat, ← ih, implicitTokens, List.foldl_append]
      change addToken (implicitTokens literals) (implicitName (implicitTokens literals).length)
        (some l) = _
      rw [addToken, hlength]

theorem map_name_implicitTokens (literals : List String) :
    (implicitTokens literals).map TokenSpec.name =
      (List.range literals.length).map implicitName := by
  apply List.ext_getElem
  · simp [implicitTokens_eq]
  · simp [implicitTokens_eq]

theorem nodup_implicitTokens (literals : List String) :
    ((implicitTokens literals).map TokenSpec.name).Nodup := by
  rw [map_name_implicitTokens]
  exact List.nodup_range.map implicitName_injective

theorem counted_implicitTokens (literals : List String) : Counted (implicitTokens literals) := by
  apply List.ext_getElem
  · simp
  · simp [implicitTokens_eq, Nat.add_comm]

/-! ## Declared tokens -/

theorem addDeclared_cons (vocabulary : List TokenSpec) (name : String) (names : List String) :
    addDeclared vocabulary (name :: names) =
      addDeclared (if hasName vocabulary name then vocabulary else addToken vocabulary name none)
        names :=
  rfl

theorem addDeclared_append (vocabulary : List TokenSpec) (names more : List String) :
    addDeclared vocabulary (names ++ more) = addDeclared (addDeclared vocabulary names) more :=
  List.foldl_append

/-- What every added token keeps is kept. -/
theorem addDeclared_invariant (P : List TokenSpec → Prop) (h : P vocabulary)
    (hadd : ∀ v name, P v → hasName v name = false → P (addToken v name none)) :
    P (addDeclared vocabulary names) := by
  refine List.foldlRecOn (motive := P) names _ h fun v hv name _ => ?_
  split
  · exact hv
  · next hname => exact hadd v name hv (by simpa using hname)

theorem prefix_addDeclared (vocabulary : List TokenSpec) (names : List String) :
    vocabulary <+: addDeclared vocabulary names :=
  addDeclared_invariant (vocabulary <+: ·) (List.prefix_refl _) fun _ _ hv _ =>
    hv.trans (List.prefix_append _ _)

theorem counted_addDeclared (h : Counted vocabulary) (names : List String) :
    Counted (addDeclared vocabulary names) :=
  addDeclared_invariant Counted h fun _ _ hv _ => counted_addToken hv none

theorem map_name_addDeclared (vocabulary : List TokenSpec) (names : List String) :
    (addDeclared vocabulary names).map TokenSpec.name =
      extendBy id (vocabulary.map TokenSpec.name) names := by
  induction names generalizing vocabulary with
  | nil => exact (extendBy_nil _ _).symm
  | cons name names ih =>
      rw [addDeclared_cons, ih, extendBy_cons]
      by_cases hname : hasName vocabulary name = true
      · rw [if_pos hname, id, if_pos (by simpa using hasName_iff_mem.mp hname)]
      · rw [if_neg hname, id, map_name_addToken, if_neg]
        simpa using fun hmem => hname (hasName_iff_mem.mpr hmem)

/-! ## Token rules -/

/-- Adding the rule of a token that is there lends its literal to the first entry of its name. -/
theorem addRule_at {r : Rule} (h : hasName vocabulary r.name = true) :
    ∃ before t after, vocabulary = before ++ t :: after ∧ (∀ s ∈ before, s.name ≠ r.name) ∧
      t.name = r.name ∧
      addRule vocabulary r =
        before ++ { t with literal := t.literal.or r.singleLiteral? } :: after := by
  rw [addRule, if_pos h, List.span_eq_takeWhile_dropWhile]
  have hsplit : vocabulary.takeWhile (fun t => t.name != r.name) ++
      vocabulary.dropWhile (fun t => t.name != r.name) = vocabulary :=
    List.takeWhile_append_dropWhile
  have hbefore : ∀ s ∈ vocabulary.takeWhile (fun t => t.name != r.name), s.name ≠ r.name :=
    fun s hs => by simpa using List.mem_takeWhile_imp hs
  cases hdrop : vocabulary.dropWhile (fun t => t.name != r.name) with
  | nil =>
      rw [hdrop, List.append_nil] at hsplit
      rw [hsplit] at hbefore
      obtain ⟨t, ht, hname⟩ := hasName_iff.mp h
      exact absurd hname (hbefore t ht)
  | cons t after =>
      rw [hdrop] at hsplit
      refine ⟨_, t, after, hsplit.symm, hbefore, ?_, rfl⟩
      have hhead := List.head_dropWhile_not (fun t : TokenSpec => t.name != r.name)
        (l := vocabulary) (by rw [hdrop]; exact List.cons_ne_nil t after)
      simpa [hdrop] using hhead

theorem map_name_addRule (r : Rule) :
    (addRule vocabulary r).map TokenSpec.name =
      extendBy id (vocabulary.map TokenSpec.name) [r.name] := by
  rw [extendBy_cons, extendBy_nil]
  cases hname : hasName vocabulary r.name with
  | true =>
      rw [id, if_pos (by simpa using hasName_iff_mem.mp hname)]
      obtain ⟨before, t, after, rfl, -, -, hadd⟩ := addRule_at hname
      rw [hadd]
      simp
  | false =>
      rw [addRule_of_not_hasName hname, map_name_addToken, if_neg]
      rw [List.map_id, id, ← hasName_iff_mem, hname]
      exact Bool.false_ne_true

theorem counted_addRule (h : Counted vocabulary) (r : Rule) : Counted (addRule vocabulary r) := by
  cases hname : hasName vocabulary r.name with
  | true =>
      obtain ⟨before, t, after, rfl, -, -, hadd⟩ := addRule_at hname
      rw [hadd]
      simpa [Counted] using h
  | false =>
      rw [addRule_of_not_hasName hname]
      exact counted_addToken h _

/-- The literal of the entry of a name. -/
def literalOf (vocabulary : List TokenSpec) (name : String) : Option String :=
  (vocabulary.find? fun t => t.name == name).bind TokenSpec.literal

theorem literalOf_addToken (h : hasName vocabulary name = false) (literal : Option String)
    (other : String) : literalOf (addToken vocabulary name literal) other =
      (literalOf vocabulary other).or (if name = other then literal else none) := by
  rw [literalOf, literalOf, addToken, List.find?_append]
  cases hfind : vocabulary.find? (fun t => t.name == other) with
  | some t =>
      have hother : t.name = other := by simpa using List.find?_some hfind
      have hne : name ≠ other := by
        rintro rfl
        rw [hasName_iff.mpr ⟨t, List.mem_of_find?_eq_some hfind, hother⟩] at h
        cases h
      rw [if_neg hne, Option.or_none]
      rfl
  | none =>
      by_cases hother : name = other <;> simp [hother]

theorem literalOf_addDeclared (vocabulary : List TokenSpec) (names : List String) :
    literalOf (addDeclared vocabulary names) = literalOf vocabulary := by
  refine addDeclared_invariant (literalOf · = literalOf vocabulary) rfl fun v name hv hname => ?_
  funext other
  rw [literalOf_addToken hname, hv, ite_self, Option.or_none]

theorem literalOf_addRule (r : Rule) (name : String) :
    literalOf (addRule vocabulary r) name =
      (literalOf vocabulary name).or (if r.name = name then r.singleLiteral? else none) := by
  cases hname : hasName vocabulary r.name with
  | false => rw [addRule_of_not_hasName hname, literalOf_addToken hname]
  | true =>
      obtain ⟨before, t, after, rfl, hbefore, ht, hadd⟩ := addRule_at hname
      rw [hadd, literalOf, literalOf, List.find?_append, List.find?_append]
      cases hfind : before.find? (fun t => t.name == name) with
      | some s =>
          have hs : s.name = name := by simpa using List.find?_some hfind
          have hne : r.name ≠ name := fun heq =>
            hbefore s (List.mem_of_find?_eq_some hfind) (hs.trans heq.symm)
          simp [hne]
      | none => by_cases hsame : r.name = name <;> simp [ht, hsame]

/-- The literal that token rules lend to the entry of a name. -/
def spelling (rules : List Rule) (name : String) : Option String :=
  (tokenRules rules).findSome? fun r => if r.name = name then r.singleLiteral? else none

theorem literalOf_vocabularyOf (implicit declared : List String) (rules : List Rule)
    (name : String) : literalOf (vocabularyOf implicit declared rules) name =
      (literalOf (implicitTokens implicit) name).or (spelling rules name) := by
  rw [vocabularyOf, spelling, ← literalOf_addDeclared (implicitTokens implicit) declared]
  generalize addDeclared (implicitTokens implicit) declared = v
  induction tokenRules rules generalizing v with
  | nil => simp
  | cons r rest ih =>
      rw [List.foldl_cons, ih, literalOf_addRule, Option.or_assoc, List.findSome?_cons]
      congr 1
      cases (if r.name = name then r.singleLiteral? else none) <;> rfl

/-! ## The whole vocabulary -/

theorem map_name_vocabularyOf (implicit declared : List String) (rules : List Rule) :
    (vocabularyOf implicit declared rules).map TokenSpec.name =
      extendBy id ((implicitTokens implicit).map TokenSpec.name)
        (declared ++ (tokenRules rules).map Rule.name) := by
  rw [vocabularyOf, ← extendBy_extendBy, ← map_name_addDeclared]
  generalize addDeclared (implicitTokens implicit) declared = v
  induction tokenRules rules generalizing v with
  | nil => exact (extendBy_nil _ _).symm
  | cons r rest ih =>
      rw [List.foldl_cons, ih, map_name_addRule, extendBy_extendBy]
      rfl

theorem counted_vocabularyOf (implicit declared : List String) (rules : List Rule) :
    Counted (vocabularyOf implicit declared rules) :=
  List.foldlRecOn (motive := Counted) _ addRule
    (counted_addDeclared (counted_implicitTokens implicit) declared)
    fun _ hv r _ => counted_addRule hv r

/-- Entries that have literals stay as they are. -/
theorem prefix_addRule {front : List TokenSpec} (hfront : front <+: vocabulary)
    (hliterals : ∀ t ∈ front, t.literal.isSome) (r : Rule) : front <+: addRule vocabulary r := by
  cases hname : hasName vocabulary r.name with
  | false =>
      rw [addRule_of_not_hasName hname]
      exact hfront.trans (List.prefix_append _ _)
  | true =>
      obtain ⟨before, t, after, rfl, -, -, hadd⟩ := addRule_at hname
      obtain ⟨rest, hrest⟩ := hfront
      rw [hadd]
      rcases List.append_eq_append_iff.mp hrest with ⟨more, rfl, -⟩ | ⟨more, rfl, hafter⟩
      · rw [List.append_assoc]
        exact List.prefix_append _ _
      · cases more with
        | nil =>
            rw [List.append_nil]
            exact List.prefix_append _ _
        | cons s more =>
            obtain ⟨rfl, rfl⟩ := List.cons.inj hafter
            obtain ⟨l, hl⟩ := Option.isSome_iff_exists.mp (hliterals t (by simp))
            have hsame : { t with literal := t.literal.or r.singleLiteral? } = t := by
              rw [hl, Option.some_or, ← hl]
            rw [hsame]
            exact ⟨rest, by simp⟩

/-- The implicit tokens come first. -/
theorem prefix_vocabularyOf (implicit declared : List String) (rules : List Rule) :
    implicitTokens implicit <+: vocabularyOf implicit declared rules := by
  have hliterals : ∀ t ∈ implicitTokens implicit, t.literal.isSome := by
    intro t ht
    rw [implicitTokens_eq] at ht
    obtain ⟨i, hi, rfl⟩ := List.mem_mapIdx.mp ht
    rfl
  exact List.foldlRecOn (motive := (implicitTokens implicit <+: ·)) _ addRule
    (prefix_addDeclared _ declared) fun _ hv r _ => prefix_addRule hv hliterals r

/-! ## Entries of distinct names -/

theorem find?_of_mem (hdistinct : (vocabulary.map TokenSpec.name).Nodup) {t : TokenSpec}
    (ht : t ∈ vocabulary) : vocabulary.find? (fun s => s.name == t.name) = some t :=
  find?_key_of_mem hdistinct ht

theorem literalOf_of_mem (hdistinct : (vocabulary.map TokenSpec.name).Nodup) {t : TokenSpec}
    (ht : t ∈ vocabulary) : literalOf vocabulary t.name = t.literal := by
  rw [literalOf, find?_of_mem hdistinct ht]
  rfl

theorem typeOf?_of_mem (hdistinct : (vocabulary.map TokenSpec.name).Nodup) {t : TokenSpec}
    (ht : t ∈ vocabulary) : typeOf? vocabulary t.name = some t.type := by
  rw [typeOf?, find?_of_mem hdistinct ht]
  rfl

end GrammarEngine.LexerSpec
