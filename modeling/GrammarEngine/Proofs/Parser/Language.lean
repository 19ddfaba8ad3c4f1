import GrammarEngine.Parser.Search

/-!
# The language of parser rules

The declarative reading of a parser program says which words of token types a rule derives. It knows
neither places nor preferences nor memory: greedy and lazy repetitions mean the same, and a
left-recursive rule is a primary followed by suffixes from some precedence on, none of them empty.

Forests make the same derivations over the tokens of an input. A phrase spans two places of an input
by some forest exactly if it derives the word between them.
-/
namespace GrammarEngine.Parser

/-- What can be derived: an expression, expressions in a row, or a rule with the precedence from
which suffixes are admitted. -/
inductive Phrase where
  | expr (e : ParseExpr)
  | row (es : List ParseExpr)
  | rule (index precedence : UInt32)

/-- The words of token types that a phrase derives. -/
inductive Derives (bodies : Array RuleBody) : Phrase → List TokenType → Prop
  | empty : Derives bodies (.expr .empty) []
  | token (t : TokenType) : Derives bodies (.expr (.token t)) [t]
  | notTokens {t : TokenType} {ts : List TokenType} :
      t ≠ TokenType.eof → t ∉ ts → Derives bodies (.expr (.notTokens ts)) [t]
  | anyToken {t : TokenType} : t ≠ TokenType.eof → Derives bodies (.expr .anyToken) [t]
  | call {index precedence : UInt32} {w : List TokenType} :
      Derives bodies (.rule index precedence) w → Derives bodies (.expr (.rule index precedence)) w
  | seq {es : List ParseExpr} {w : List TokenType} :
      Derives bodies (.row es) w → Derives bodies (.expr (.seq es)) w
  | choice {e : ParseExpr} {es : List ParseExpr} {w : List TokenType} :
      e ∈ es → Derives bodies (.expr e) w → Derives bodies (.expr (.choice es)) w
  | skip (e : ParseExpr) (greedy : Bool) : Derives bodies (.expr (.optional e greedy)) []
  | take {e : ParseExpr} {w : List TokenType} (greedy : Bool) :
      Derives bodies (.expr e) w → Derives bodies (.expr (.optional e greedy)) w
  | starNil (e : ParseExpr) (greedy : Bool) : Derives bodies (.expr (.star e greedy)) []
  | starMore {e : ParseExpr} {greedy : Bool} {u v : List TokenType} :
      Derives bodies (.expr (.star e greedy)) u → Derives bodies (.expr e) v →
      Derives bodies (.expr (.star e greedy)) (u ++ v)
  | plusOne {e : ParseExpr} {w : List TokenType} (greedy : Bool) :
      Derives bodies (.expr e) w → Derives bodies (.expr (.plus e greedy)) w
  | plusMore {e : ParseExpr} {greedy : Bool} {u v : List TokenType} :
      Derives bodies (.expr (.plus e greedy)) u → Derives bodies (.expr e) v →
      Derives bodies (.expr (.plus e greedy)) (u ++ v)
  | nil : Derives bodies (.row []) []
  | cons {e : ParseExpr} {es : List ParseExpr} {u v : List TokenType} :
      Derives bodies (.expr e) u → Derives bodies (.row es) v →
      Derives bodies (.row (e :: es)) (u ++ v)
  | plain {index : UInt32} {body : ParseExpr} {w : List TokenType} (precedence : UInt32) :
      bodies[index.toNat]? = some (.plain body) → Derives bodies (.expr body) w →
      Derives bodies (.rule index precedence) w
  | primary {index : UInt32} {primary : ParseExpr} {suffixes : List Suffix} {w : List TokenType}
      (precedence : UInt32) :
      bodies[index.toNat]? = some (.leftRecursive primary suffixes) →
      Derives bodies (.expr primary) w → Derives bodies (.rule index precedence) w
  | suffix {index precedence : UInt32} {primary : ParseExpr} {suffixes : List Suffix} {s : Suffix}
      {u v : List TokenType} :
      bodies[index.toNat]? = some (.leftRecursive primary suffixes) → s ∈ suffixes →
      precedence ≤ s.precedence → v ≠ [] → Derives bodies (.rule index precedence) u →
      Derives bodies (.expr s.body) v → Derives bodies (.rule index precedence) (u ++ v)

/-- An expression that derives the empty word. -/
def Nullable (bodies : Array RuleBody) (e : ParseExpr) : Prop := Derives bodies (.expr e) []

/-! ## Forests -/

/-- The forests by which a phrase spans the tokens of an input from a place up to another. -/
inductive Spans (bodies : Array RuleBody) (input : Array Token) :
    Phrase → Nat → Nat → List Derivation → Prop
  | empty (i : Nat) : Spans bodies input (.expr .empty) i i []
  | token {i : Nat} {t : Token} :
      input[i]? = some t → Spans bodies input (.expr (.token t.type)) i (i + 1) [.token i]
  | notTokens {i : Nat} {t : Token} {ts : List TokenType} :
      input[i]? = some t → t.type ≠ TokenType.eof → t.type ∉ ts →
      Spans bodies input (.expr (.notTokens ts)) i (i + 1) [.token i]
  | anyToken {i : Nat} {t : Token} :
      input[i]? = some t → t.type ≠ TokenType.eof →
      Spans bodies input (.expr .anyToken) i (i + 1) [.token i]
  | call {index precedence : UInt32} {i j : Nat} {ds : List Derivation} :
      Spans bodies input (.rule index precedence) i j ds →
      Spans bodies input (.expr (.rule index precedence)) i j ds
  | seq {es : List ParseExpr} {i j : Nat} {ds : List Derivation} :
      Spans bodies input (.row es) i j ds → Spans bodies input (.expr (.seq es)) i j ds
  | choice {e : ParseExpr} {es : List ParseExpr} {i j : Nat} {ds : List Derivation} :
      e ∈ es → Spans bodies input (.expr e) i j ds → Spans bodies input (.expr (.choice es)) i j ds
  | skip (e : ParseExpr) (greedy : Bool) (i : Nat) :
      Spans bodies input (.expr (.optional e greedy)) i i []
  | take {e : ParseExpr} {i j : Nat} {ds : List Derivation} (greedy : Bool) :
      Spans bodies input (.expr e) i j ds → Spans bodies input (.expr (.optional e greedy)) i j ds
  | starNil (e : ParseExpr) (greedy : Bool) (i : Nat) :
      Spans bodies input (.expr (.star e greedy)) i i []
  | starMore {e : ParseExpr} {greedy : Bool} {i j k : Nat} {ds ds' : List Derivation} :
      Spans bodies input (.expr (.star e greedy)) i j ds → Spans bodies input (.expr e) j k ds' →
      Spans bodies input (.expr (.star e greedy)) i k (ds ++ ds')
  | plusOne {e : ParseExpr} {i j : Nat} {ds : List Derivation} (greedy : Bool) :
      Spans bodies input (.expr e) i j ds → Spans bodies input (.expr (.plus e greedy)) i j ds
  | plusMore {e : ParseExpr} {greedy : Bool} {i j k : Nat} {ds ds' : List Derivation} :
      Spans bodies input (.expr (.plus e greedy)) i j ds → Spans bodies input (.expr e) j k ds' →
      Spans bodies input (.expr (.plus e greedy)) i k (ds ++ ds')
  | nil (i : Nat) : Spans bodies input (.row []) i i []
  | cons {e : ParseExpr} {es : List ParseExpr} {i j k : Nat} {ds ds' : List Derivation} :
      Spans bodies input (.expr e) i j ds → Spans bodies input (.row es) j k ds' →
      Spans bodies input (.row (e :: es)) i k (ds ++ ds')
  | plain {index : UInt32} {body : ParseExpr} {i j : Nat} {ds : List Derivation}
      (precedence : UInt32) :
      bodies[index.toNat]? = some (.plain body) → Spans bodies input (.expr body) i j ds →
      Spans bodies input (.rule index precedence) i j [.rule ⟨index, precedence, i⟩ none j ds]
  | primary {index : UInt32} {primary : ParseExpr} {suffixes : List Suffix} {i j : Nat}
      {ds : List Derivation} (precedence : UInt32) :
      bodies[index.toNat]? = some (.leftRecursive primary suffixes) →
      Spans bodies input (.expr primary) i j ds →
      Spans bodies input (.rule index precedence) i j [.rule ⟨index, precedence, i⟩ none j ds]
  | suffix {index precedence : UInt32} {primary : ParseExpr} {suffixes : List Suffix} {s : Suffix}
      {i j k : Nat} {d : Derivation} {ds : List Derivation} :
      bodies[index.toNat]? = some (.leftRecursive primary suffixes) → s ∈ suffixes →
      precedence ≤ s.precedence → j < k → Spans bodies input (.rule index precedence) i j [d] →
      Spans bodies input (.expr s.body) j k ds →
      Spans bodies input (.rule index precedence) i k
        [.rule ⟨index, precedence, i⟩ (some s.precedence) k (d :: ds)]

variable {bodies : Array RuleBody} {input : Array Token} {phrase : Phrase} {i j k : Nat}

theorem Spans.le {ds : List Derivation} (h : Spans bodies input phrase i j ds) : i ≤ j := by
  induction h with
  | empty | skip | starNil | nil => exact Nat.le_refl _
  | token | notTokens | anyToken => exact Nat.le_succ _
  | call _ ih | seq _ ih | choice _ _ ih | take _ _ ih | plusOne _ _ ih => exact ih
  | plain _ _ _ ih | primary _ _ _ ih => exact ih
  | starMore _ _ ih ih' | plusMore _ _ ih ih' | cons _ _ ih ih' => exact Nat.le_trans ih ih'
  | suffix _ _ _ _ _ _ ih ih' => exact Nat.le_trans ih ih'

/-- Tokens are there as far as a phrase reads. -/
theorem Spans.stop_le {ds : List Derivation} (h : Spans bodies input phrase i j ds) :
    i = j ∨ j ≤ input.size := by
  induction h with
  | empty | skip | starNil | nil => exact .inl rfl
  | token ht | notTokens ht | anyToken ht =>
      exact .inr (Array.getElem?_eq_some_iff.mp ht).1
  | call _ ih | seq _ ih | choice _ _ ih | take _ _ ih | plusOne _ _ ih => exact ih
  | plain _ _ _ ih | primary _ _ _ ih => exact ih
  | starMore _ _ ih ih' | plusMore _ _ ih ih' | cons _ _ ih ih' => omega
  | suffix _ _ _ _ _ _ ih ih' => omega

/-- Expressions in a row are spanned part by part. -/
theorem Spans.exists_row_append {es es' : List ParseExpr} {ds : List Derivation}
    (h : Spans bodies input (.row (es ++ es')) i k ds) :
    ∃ j front back, ds = front ++ back ∧ Spans bodies input (.row es) i j front ∧
      Spans bodies input (.row es') j k back := by
  induction es generalizing i ds with
  | nil => exact ⟨i, [], ds, rfl, .nil i, h⟩
  | cons e es ih =>
      cases h with
      | cons he hes =>
          obtain ⟨j, front, back, rfl, hfront, hback⟩ := ih hes
          exact ⟨j, _ ++ front, back, (List.append_assoc ..).symm, .cons he hfront, hback⟩

theorem Spans.of_row_single {e : ParseExpr} {ds : List Derivation}
    (h : Spans bodies input (.row [e]) i j ds) : Spans bodies input (.expr e) i j ds := by
  cases h with
  | cons he hnil =>
      cases hnil
      rwa [List.append_nil]

/-! ## Leaves -/

mutual
/-- The places of the tokens at the leaves of a derivation. -/
def leaves : Derivation → List Nat
  | .token place => [place]
  | .rule _ _ _ children => leavesAll children

def leavesAll : List Derivation → List Nat
  | [] => []
  | d :: rest => leaves d ++ leavesAll rest
end

@[simp] theorem leavesAll_append (ds es : List Derivation) :
    leavesAll (ds ++ es) = leavesAll ds ++ leavesAll es := by
  induction ds with
  | nil => rfl
  | cons d ds ih => simp [leavesAll, ih]

theorem range'_append_of_le (hij : i ≤ j) (hjk : j ≤ k) :
    List.range' i (j - i) ++ List.range' j (k - j) = List.range' i (k - i) := by
  have h := List.range'_append_1 (s := i) (m := j - i) (n := k - j)
  rwa [show i + (j - i) = j by omega, show j - i + (k - j) = k - i by omega] at h

/-- The leaves of a forest are the tokens that it spans, in order. -/
theorem Spans.leavesAll_eq {ds : List Derivation} (h : Spans bodies input phrase i j ds) :
    leavesAll ds = List.range' i (j - i) := by
  induction h with
  | empty | skip | starNil | nil => simp [leavesAll]
  | token | notTokens | anyToken => simp [leavesAll, leaves]
  | call _ ih | seq _ ih | choice _ _ ih | take _ _ ih | plusOne _ _ ih => exact ih
  | plain _ _ _ ih | primary _ _ _ ih => simpa [leavesAll, leaves] using ih
  | starMore h h' ih ih' | plusMore h h' ih ih' | cons h h' ih ih' =>
      rw [leavesAll_append, ih, ih', range'_append_of_le h.le h'.le]
  | suffix _ _ _ _ h h' ih ih' =>
      simp only [leavesAll, leaves, List.append_nil] at ih ⊢
      rw [ih, ih', range'_append_of_le h.le h'.le]

/-! ## Words between places -/

/-- The types of the tokens of an input. -/
def types (input : Array Token) : List TokenType := input.toList.map Token.type

/-- A word is read from a place up to another. -/
def Spells (input : Array Token) (i j : Nat) (w : List TokenType) : Prop :=
  w <+: (types input).drop i ∧ j = i + w.length

theorem Spells.nil (i : Nat) : Spells input i i [] := ⟨List.nil_prefix, rfl⟩

theorem spells_single {t : TokenType} :
    Spells input i j [t] ↔ (∃ u, input[i]? = some u ∧ u.type = t) ∧ j = i + 1 := by
  have hget : ((types input).drop i)[0]? = (input[i]?).map Token.type := by
    simp [types]
  constructor
  · rintro ⟨⟨rest, hrest⟩, rfl⟩
    rw [← hrest] at hget
    obtain ⟨u, hu, hut⟩ := Option.map_eq_some_iff.mp hget.symm
    exact ⟨⟨u, hu, hut⟩, rfl⟩
  · rintro ⟨⟨u, hu, rfl⟩, rfl⟩
    refine ⟨?_, rfl⟩
    rw [hu] at hget
    cases hdrop : (types input).drop i with
    | nil => simp [hdrop] at hget
    | cons a rest =>
        rw [hdrop] at hget
        obtain rfl : a = u.type := by simpa using hget
        exact ⟨rest, rfl⟩

theorem Spells.append {u v : List TokenType} (hu : Spells input i j u) (hv : Spells input j k v) :
    Spells input i k (u ++ v) := by
  obtain ⟨⟨rest, hrest⟩, rfl⟩ := hu
  obtain ⟨⟨rest', hrest'⟩, rfl⟩ := hv
  refine ⟨⟨rest', ?_⟩, by simp [Nat.add_assoc]⟩
  rw [← List.drop_drop, ← hrest, List.drop_left] at hrest'
  rw [List.append_assoc, hrest', hrest]

/-- A word that is put together is read part by part. -/
theorem Spells.exists_mid {u v : List TokenType} (h : Spells input i k (u ++ v)) :
    ∃ j, Spells input i j u ∧ Spells input j k v := by
  obtain ⟨⟨rest, hrest⟩, rfl⟩ := h
  refine ⟨i + u.length, ⟨⟨v ++ rest, by rw [← hrest, List.append_assoc]⟩, rfl⟩, ⟨rest, ?_⟩, ?_⟩
  · rw [← List.drop_drop, ← hrest, List.append_assoc, List.drop_left]
  · rw [List.length_append, Nat.add_assoc]

/-- What a forest spans is derived. -/
theorem Spans.derives {ds : List Derivation} (h : Spans bodies input phrase i j ds) :
    ∃ w, Derives bodies phrase w ∧ Spells input i j w := by
  induction h with
  | empty => exact ⟨[], .empty, .nil _⟩
  | token ht => exact ⟨_, .token _, spells_single.mpr ⟨⟨_, ht, rfl⟩, rfl⟩⟩
  | notTokens ht hne hnot =>
      exact ⟨_, .notTokens hne hnot, spells_single.mpr ⟨⟨_, ht, rfl⟩, rfl⟩⟩
  | anyToken ht hne => exact ⟨_, .anyToken hne, spells_single.mpr ⟨⟨_, ht, rfl⟩, rfl⟩⟩
  | call _ ih =>
      obtain ⟨w, hw, hs⟩ := ih
      exact ⟨w, .call hw, hs⟩
  | seq _ ih =>
      obtain ⟨w, hw, hs⟩ := ih
      exact ⟨w, .seq hw, hs⟩
  | choice hmem _ ih =>
      obtain ⟨w, hw, hs⟩ := ih
      exact ⟨w, .choice hmem hw, hs⟩
  | skip => exact ⟨[], .skip _ _, .nil _⟩
  | take greedy _ ih =>
      obtain ⟨w, hw, hs⟩ := ih
      exact ⟨w, .take greedy hw, hs⟩
  | starNil => exact ⟨[], .starNil _ _, .nil _⟩
  | starMore _ _ ih ih' =>
      obtain ⟨u, hu, hsu⟩ := ih
      obtain ⟨v, hv, hsv⟩ := ih'
      exact ⟨u ++ v, .starMore hu hv, hsu.append hsv⟩
  | plusOne greedy _ ih =>
      obtain ⟨w, hw, hs⟩ := ih
      exact ⟨w, .plusOne greedy hw, hs⟩
  | plusMore _ _ ih ih' =>
      obtain ⟨u, hu, hsu⟩ := ih
      obtain ⟨v, hv, hsv⟩ := ih'
      exact ⟨u ++ v, .plusMore hu hv, hsu.append hsv⟩
  | nil => exact ⟨[], .nil, .nil _⟩
  | cons _ _ ih ih' =>
      obtain ⟨u, hu, hsu⟩ := ih
      obtain ⟨v, hv, hsv⟩ := ih'
      exact ⟨u ++ v, .cons hu hv, hsu.append hsv⟩
  | plain precedence hbody _ ih =>
      obtain ⟨w, hw, hs⟩ := ih
      exact ⟨w, .plain precedence hbody hw, hs⟩
  | primary precedence hbody _ ih =>
      obtain ⟨w, hw, hs⟩ := ih
      exact ⟨w, .primary precedence hbody hw, hs⟩
  | suffix hbody hmem hle hlt _ _ ih ih' =>
      obtain ⟨u, hu, hsu⟩ := ih
      obtain ⟨v, hv, hsv⟩ := ih'
      refine ⟨u ++ v, .suffix hbody hmem hle ?_ hu hv, hsu.append hsv⟩
      rintro rfl
      have := hsv.2
      simp at this
      omega

/-- Whether a forest of a phrase can only be a single derivation. -/
def Phrase.isRule : Phrase → Bool
  | rule .. => true
  | _ => false

/-- What is derived is spanned wherever the input spells it; a rule by a single derivation. -/
theorem Derives.spans {w : List TokenType} (h : Derives bodies phrase w)
    (hw : Spells input i j w) :
    ∃ ds, Spans bodies input phrase i j ds ∧ (phrase.isRule = true → ∃ d, ds = [d]) := by
  induction h generalizing i j with
  | empty =>
      obtain rfl := hw.2
      exact ⟨[], .empty _, nofun⟩
  | token t =>
      obtain ⟨⟨u, hu, rfl⟩, rfl⟩ := spells_single.mp hw
      exact ⟨_, .token hu, nofun⟩
  | notTokens hne hnot =>
      obtain ⟨⟨u, hu, rfl⟩, rfl⟩ := spells_single.mp hw
      exact ⟨_, .notTokens hu hne hnot, nofun⟩
  | anyToken hne =>
      obtain ⟨⟨u, hu, rfl⟩, rfl⟩ := spells_single.mp hw
      exact ⟨_, .anyToken hu hne, nofun⟩
  | call _ ih =>
      obtain ⟨ds, hds, -⟩ := ih hw
      exact ⟨ds, .call hds, nofun⟩
  | seq _ ih =>
      obtain ⟨ds, hds, -⟩ := ih hw
      exact ⟨ds, .seq hds, nofun⟩
  | choice hmem _ ih =>
      obtain ⟨ds, hds, -⟩ := ih hw
      exact ⟨ds, .choice hmem hds, nofun⟩
  | skip e greedy =>
      obtain rfl := hw.2
      exact ⟨[], .skip e greedy _, nofun⟩
  | take greedy _ ih =>
      obtain ⟨ds, hds, -⟩ := ih hw
      exact ⟨ds, .take greedy hds, nofun⟩
  | starNil e greedy =>
      obtain rfl := hw.2
      exact ⟨[], .starNil e greedy _, nofun⟩
  | starMore _ _ ih ih' =>
      obtain ⟨mid, hu, hv⟩ := hw.exists_mid
      obtain ⟨ds, hds, -⟩ := ih hu
      obtain ⟨ds', hds', -⟩ := ih' hv
      exact ⟨ds ++ ds', .starMore hds hds', nofun⟩
  | plusOne greedy _ ih =>
      obtain ⟨ds, hds, -⟩ := ih hw
      exact ⟨ds, .plusOne greedy hds, nofun⟩
  | plusMore _ _ ih ih' =>
      obtain ⟨mid, hu, hv⟩ := hw.exists_mid
      obtain ⟨ds, hds, -⟩ := ih hu
      obtain ⟨ds', hds', -⟩ := ih' hv
      exact ⟨ds ++ ds', .plusMore hds hds', nofun⟩
  | nil =>
      obtain rfl := hw.2
      exact ⟨[], .nil _, nofun⟩
  | cons _ _ ih ih' =>
      obtain ⟨mid, hu, hv⟩ := hw.exists_mid
      obtain ⟨ds, hds, -⟩ := ih hu
      obtain ⟨ds', hds', -⟩ := ih' hv
      exact ⟨ds ++ ds', .cons hds hds', nofun⟩
  | plain precedence hbody _ ih =>
      obtain ⟨ds, hds, -⟩ := ih hw
      exact ⟨_, .plain precedence hbody hds, fun _ => ⟨_, rfl⟩⟩
  | primary precedence hbody _ ih =>
      obtain ⟨ds, hds, -⟩ := ih hw
      exact ⟨_, .primary precedence hbody hds, fun _ => ⟨_, rfl⟩⟩
  | suffix hbody hmem hle hne _ _ ih ih' =>
      obtain ⟨mid, hu, hv⟩ := hw.exists_mid
      obtain ⟨ds, hds, hsingle⟩ := ih hu
      obtain ⟨d, rfl⟩ := hsingle rfl
      obtain ⟨ds', hds', -⟩ := ih' hv
      have hlt : mid < j := by
        have := List.length_pos_iff.mpr hne
        have := hv.2
        omega
      exact ⟨_, .suffix hbody hmem hle hlt hds hds', fun _ => ⟨_, rfl⟩⟩

/-! ## Expressions that match nothing -/

mutual
/-- Whether an expression can match nothing when the given rules can. -/
def skips (rules : UInt32 → Bool) : ParseExpr → Bool
  | .empty => true
  | .rule index _ => rules index
  | .seq items => skipsAll rules items
  | .choice alternatives => skipsAny rules alternatives
  | .optional .. => true
  | .star .. => true
  | .plus body _ => skips rules body
  | _ => false

def skipsAll (rules : UInt32 → Bool) : List ParseExpr → Bool
  | [] => true
  | e :: rest => skips rules e && skipsAll rules rest

def skipsAny (rules : UInt32 → Bool) : List ParseExpr → Bool
  | [] => false
  | e :: rest => skips rules e || skipsAny rules rest
end

/-- Whether a phrase can match nothing when the given rules can. -/
def Phrase.skips (rules : UInt32 → Bool) : Phrase → Bool
  | .expr e => Parser.skips rules e
  | .row es => skipsAll rules es
  | .rule index _ => rules index

theorem skipsAny_of_mem {rules : UInt32 → Bool} {es : List ParseExpr} {e : ParseExpr} (he : e ∈ es)
    (h : skips rules e = true) : skipsAny rules es = true := by
  induction es with
  | nil => exact absurd he List.not_mem_nil
  | cons first rest ih =>
      rw [skipsAny, Bool.or_eq_true]
      rcases List.mem_cons.mp he with rfl | he
      · exact .inl h
      · exact .inr (ih he)

/-- The given rules are all that can match nothing when they can. -/
structure Covers (bodies : Array RuleBody) (rules : UInt32 → Bool) : Prop where
  plain : ∀ {index : UInt32} {body : ParseExpr}, bodies[index.toNat]? = some (.plain body) →
    skips rules body = true → rules index = true
  primary : ∀ {index : UInt32} {primary : ParseExpr} {suffixes : List Suffix},
    bodies[index.toNat]? = some (.leftRecursive primary suffixes) →
    skips rules primary = true → rules index = true

/-- Only what matches nothing by its form derives the empty word. -/
theorem Covers.skips {rules : UInt32 → Bool} (h : Covers bodies rules) {w : List TokenType}
    (hd : Derives bodies phrase w) (hw : w = []) : phrase.skips rules = true := by
  induction hd with
  | empty | skip | starNil | nil => rfl
  | starMore => rfl
  | token | notTokens | anyToken => cases hw
  | call _ ih | seq _ ih | plusOne _ _ ih => exact ih hw
  | choice hmem _ ih => exact skipsAny_of_mem hmem (ih hw)
  | take => rfl
  | plusMore _ _ ih _ => exact ih (List.append_eq_nil_iff.mp hw).1
  | cons _ _ ih ih' =>
      obtain ⟨hu, hv⟩ := List.append_eq_nil_iff.mp hw
      exact Bool.and_eq_true_iff.mpr ⟨ih hu, ih' hv⟩
  | plain _ hbody _ ih => exact h.plain hbody (ih hw)
  | primary _ hbody _ ih => exact h.primary hbody (ih hw)
  | suffix _ _ _ hne => exact absurd (List.append_eq_nil_iff.mp hw).2 hne

end GrammarEngine.Parser
