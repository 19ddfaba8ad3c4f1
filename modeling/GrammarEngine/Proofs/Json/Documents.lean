import GrammarEngine.Json.Printer
import GrammarEngine.Json.Reader
import GrammarEngine.Proofs.Text

/-!
# Printed documents

A printed document is read back if its integers fit in sixty-four bits, its containers do not nest
too deeply, and no object repeats a name. Reading has two stages, so this has two halves: the text
is cut into the tokens of the document, and these tokens lead the machine from a state that waits
for a value to the one that has been handed the document.

A printed text is read back character by character, as every escape is. The digits of a number are
read to their end, so what follows an integer must not go on with it: digits, a point or an
exponent. The digits of an integer in range fit the word that collects them.
-/
namespace GrammarEngine.Json

/-! ## Scalars -/

variable {cs ds rest : List Char} {c : Char} {bound n : Nat}

/-! ### Texts -/

theorem fourDigits_eq : ∀ n < 0x20,
    fourDigits n = ['0', '0', Nat.digitChar (n / 16), Nat.digitChar (n % 16)] := by
  decide

theorem codeUnit?_eq : ∀ n < 0x20,
    codeUnit? '0' '0' (Nat.digitChar (n / 16)) (Nat.digitChar (n % 16)) = some n := by
  decide

theorem escape?_control (h : c.toNat < 0x20) :
    escape? ('u' :: fourDigits c.toNat ++ rest) = some (c, rest) := by
  have hnot : ¬(0xd800 ≤ c.toNat ∧ c.toNat < 0xdc00) := by omega
  rw [fourDigits_eq c.toNat h]
  simp only [List.cons_append, List.nil_append, escape?, codeUnit?_eq c.toNat h, if_neg hnot,
    Text.charOfCode?_toNat, Option.map_some]

/-- A character is written as an escape that is read as this character, or as itself. -/
theorem escapeChar_cases (c : Char) :
    (∃ ds, escapeChar c = '\\' :: ds ∧ ∀ rest, escape? (ds ++ rest) = some (c, rest)) ∨
      (escapeChar c = [c] ∧ c ≠ '"' ∧ c ≠ '\\' ∧ ¬c.toNat < 0x20) := by
  by_cases hletter : c ∈ ['"', '\\', '\n', '\r', '\t', '\x08', '\x0c']
  · simp only [List.mem_cons, List.not_mem_nil, or_false] at hletter
    rcases hletter with rfl | rfl | rfl | rfl | rfl | rfl | rfl <;>
      exact .inl ⟨_, rfl, fun _ => rfl⟩
  · simp only [List.mem_cons, List.not_mem_nil, or_false, not_or] at hletter
    by_cases hcontrol : c.toNat < 0x20
    · refine .inl ⟨'u' :: fourDigits c.toNat, ?_, fun _ => escape?_control hcontrol⟩
      simp [escapeChar, hletter, hcontrol]
    · refine .inr ⟨?_, hletter.1, hletter.2.1, hcontrol⟩
      simp [escapeChar, hletter, hcontrol]

/-- A written character is read in one step. -/
theorem string?_escapeChar (bound : Nat) (c : Char) (rest : List Char) :
    string? (bound + 1) (escapeChar c ++ rest) =
      (string? bound rest).map fun (cs, rest) => (c :: cs, rest) := by
  rcases escapeChar_cases c with ⟨ds, hc, hds⟩ | ⟨hc, hquote, hbackslash, hcontrol⟩
  · rw [hc]
    simp only [List.cons_append, string?, hds]
    rfl
  · rw [hc]
    simp [string?, hquote, hbackslash, hcontrol]

theorem string?_flatMap_escapeChar (h : cs.length < bound) :
    string? bound (cs.flatMap escapeChar ++ '"' :: rest) = some (cs, rest) := by
  induction cs generalizing bound with
  | nil =>
      obtain ⟨n, rfl⟩ := Nat.exists_eq_add_of_lt h
      simp [string?]
  | cons c cs ih =>
      obtain ⟨n, rfl⟩ : ∃ n, bound = n + 1 := ⟨bound - 1, by omega⟩
      rw [List.flatMap_cons, List.append_assoc, string?_escapeChar, ih (by simpa using h)]
      rfl

/-! ### Numbers -/

theorem fillWord_append {word word' : Nat} (h : fillWord word cs = (word', [])) :
    fillWord word (cs ++ ds) = fillWord word' ds := by
  induction cs generalizing word with
  | nil =>
      obtain ⟨rfl, _⟩ := Prod.mk.inj h
      rfl
  | cons c cs ih =>
      simp only [fillWord, List.cons_append] at h ⊢
      split at h
      · next hfits =>
        rw [if_pos hfits]
        exact ih h
      · exact absurd (Prod.mk.inj h).2 (List.cons_ne_nil _ _)

theorem toNat_digitChar : ∀ d < 10, (Nat.digitChar d).toNat - 48 = d := by
  decide

theorem isDigit_digitChar : ∀ d < 10, (Nat.digitChar d).isDigit = true := by
  decide

/-- The digits of a number that fits leave the number in the word. -/
theorem fillWord_toDigits (h : n < wordBound) : fillWord 0 (Nat.toDigits 10 n) = (n, []) := by
  induction n using Nat.strongRecOn with
  | ind n ih =>
      rcases Nat.lt_or_ge n 10 with hn | hn
      · rw [Nat.toDigits_of_lt_base hn]
        simp only [fillWord, toNat_digitChar n hn, Nat.mul_zero, Nat.zero_add, if_pos h]
      · have hprefix := ih (n / 10) (Nat.div_lt_self (by omega) (by decide)) (by omega)
        have hlast := toNat_digitChar (n % 10) (Nat.mod_lt n (by decide))
        have hn' : 10 * (n / 10) + n % 10 = n := Nat.div_add_mod n 10
        rw [Nat.toDigits_of_base_le (by decide) hn, fillWord_append hprefix]
        simp only [fillWord, hlast, hn', if_pos h]

/-- A number other than zero does not begin with the digit zero. -/
theorem head?_toDigits (h : 0 < n) : (Nat.toDigits 10 n).head? ≠ some '0' := by
  induction n using Nat.strongRecOn with
  | ind n ih =>
      rcases Nat.lt_or_ge n 10 with hn | hn
      · rw [Nat.toDigits_of_lt_base hn]
        have hfirst : ∀ d < 10, 0 < d → some (Nat.digitChar d) ≠ some '0' := by decide
        exact hfirst n hn h
      · have hprefix := ih (n / 10) (Nat.div_lt_self h (by decide)) (by omega)
        obtain ⟨c, cs, hcs⟩ := List.exists_cons_of_ne_nil (Nat.toDigits_ne_nil (n := n / 10))
        rw [hcs] at hprefix
        rw [Nat.toDigits_of_base_le (by decide) hn, hcs]
        exact hprefix

theorem isDigit_of_mem_toDigits (h : c ∈ Nat.toDigits 10 n) : c.isDigit = true := by
  obtain ⟨d, hd, rfl⟩ := Text.mem_toDigits (by decide) h
  exact isDigit_digitChar d hd

/-- What follows a number and is no part of it. -/
def endsNumber : List Char → Bool
  | [] => true
  | c :: _ => !c.isDigit && c != '.' && c != 'e' && c != 'E'

theorem digits_append (hds : ∀ c ∈ ds, c.isDigit = true) (hrest : endsNumber rest = true) :
    digits (ds ++ rest) = (ds, rest) := by
  have hstop : rest.takeWhile Char.isDigit = [] ∧ rest.dropWhile Char.isDigit = rest := by
    cases rest with
    | nil => exact ⟨rfl, rfl⟩
    | cons c rest =>
        have hc : c.isDigit = false := by
          simp only [endsNumber, Bool.and_eq_true, Bool.not_eq_true'] at hrest
          exact hrest.1.1.1
        simp [hc]
  unfold digits
  rw [List.takeWhile_append_of_pos hds, List.dropWhile_append_of_pos hds, hstop.1, hstop.2,
    List.append_nil]

theorem fraction?_end (h : endsNumber rest = true) : fraction? rest = some ([], rest) := by
  unfold fraction?
  split
  · simp [endsNumber] at h
  · rfl

theorem exponent?_end (h : endsNumber rest = true) : exponent? rest = some (none, rest) := by
  unfold exponent?
  split
  · simp [endsNumber] at h
  · simp [endsNumber] at h
  · rfl

theorem number?_toDigits (negative : Bool) (h : n < wordBound)
    (hsign : negative = true → 0 < n) :
    number? negative (Nat.toDigits 10 n) [] none =
      some (ofInt (if negative then -(n : Int) else n)) := by
  have hscientific : scientific (Nat.toDigits 10 n) [] = (n, 0) := by
    simp [scientific, fillWord_toDigits h, fillWord]
  have hzero : (negative && n == 0) = false := by
    cases negative with
    | false => rfl
    | true => simpa using Nat.pos_iff_ne_zero.mp (hsign rfl)
  simp [number?, hscientific, hzero]

theorem unsigned?_toDigits (negative : Bool) (h : n < wordBound)
    (hsign : negative = true → 0 < n) (hrest : endsNumber rest = true) :
    unsigned? negative (Nat.toDigits 10 n ++ rest) =
      some (ofInt (if negative then -(n : Int) else n), rest) := by
  have hdigits : digits (Nat.toDigits 10 n ++ rest) = (Nat.toDigits 10 n, rest) :=
    digits_append (fun c hc => isDigit_of_mem_toDigits hc) hrest
  unfold unsigned?
  rw [hdigits]
  split
  · next heq => exact absurd (Prod.mk.inj heq).1 Nat.toDigits_ne_nil
  · next c more _ heq =>
    have hlong := (Prod.mk.inj heq).1
    rcases Nat.eq_zero_or_pos n with rfl | hpos
    · simp at hlong
    · exact absurd (by rw [hlong]; rfl) (head?_toDigits hpos)
  · next heq =>
    obtain ⟨rfl, rfl⟩ := Prod.mk.inj heq
    simp only [fraction?_end hrest, exponent?_end hrest, number?_toDigits negative h hsign,
      Option.bind_eq_bind, Option.bind_some, pure]

end GrammarEngine.Json

namespace GrammarEngine.Json

variable {P Q : List Char → Prop} {cs ds : List Char} {ts us : List Token} {c : Char}
  {t : Token} {value j : Json} {depth : Nat} {items : List Json} {fields : List (String × Json)}
  {frames : List Frame}

/-! ## Documents -/

/-- A document that is read back where containers may still nest to a depth. -/
inductive Readable : Nat → Json → Prop
  | null (depth : Nat) : Readable depth .null
  | bool (depth : Nat) (b : Bool) : Readable depth (.bool b)
  | int {depth : Nat} {n : Int} : minInt ≤ n → n ≤ maxInt → Readable depth (.int n)
  | text (depth : Nat) (s : String) : Readable depth (.text s)
  | list {depth : Nat} {items : List Json} :
      (∀ j ∈ items, Readable depth j) → Readable (depth + 1) (.list items)
  | object {depth : Nat} {fields : List (String × Json)} :
      (∀ f ∈ fields, Readable depth f.2) → (fields.map Prod.fst).Nodup →
        Readable (depth + 1) (.object fields)

mutual
/-- The tokens of a document. -/
def tokensOf : Json → List Token
  | .list [] => [.openList, .closeList]
  | .list (j :: rest) => .openList :: (tokensOf j ++ itemTokens rest ++ [.closeList])
  | .object [] => [.openObject, .closeObject]
  | .object ((name, j) :: rest) =>
    .openObject :: .scalar (.text name) :: .colon ::
      (tokensOf j ++ fieldTokens rest ++ [.closeObject])
  | j => [.scalar j]

def itemTokens : List Json → List Token
  | [] => []
  | j :: rest => .comma :: (tokensOf j ++ itemTokens rest)

def fieldTokens : List (String × Json) → List Token
  | [] => []
  | (name, j) :: rest =>
    .comma :: .scalar (.text name) :: .colon :: (tokensOf j ++ fieldTokens rest)
end

/-! ## Cutting a text -/

/-- Before what has a property, characters are cut into these tokens. The bounds say that there is
always enough fuel for what is left. -/
def Cuts (P : List Char → Prop) (cs : List Char) (ts : List Token) : Prop :=
  ∀ rest bound, P rest → (cs ++ rest).length < bound →
    ∃ bound', rest.length < bound' ∧
      tokens? bound (cs ++ rest) = (tokens? bound' rest).map (ts ++ ·)

theorem cuts_nil : Cuts P [] [] := by
  intro rest bound _ hbound
  exact ⟨bound, hbound, by simp⟩

theorem Cuts.append (h : Cuts P cs ts) (h' : Cuts Q ds us)
    (hfollow : ∀ rest, Q rest → P (ds ++ rest)) : Cuts Q (cs ++ ds) (ts ++ us) := by
  intro rest bound hrest hbound
  rw [List.append_assoc] at hbound ⊢
  obtain ⟨bound', hbound', hfirst⟩ := h (ds ++ rest) bound (hfollow rest hrest) hbound
  obtain ⟨bound'', hbound'', hsecond⟩ := h' rest bound' hrest hbound'
  refine ⟨bound'', hbound'', ?_⟩
  rw [hfirst, hsecond, Option.map_map]
  simp [Function.comp_def]

theorem cuts_space (h : isSpace c = true) : Cuts P [c] [] := by
  intro rest bound _ hbound
  obtain ⟨n, rfl⟩ : ∃ n, bound = n + 1 := ⟨bound - 1, by omega⟩
  refine ⟨n, by simpa using hbound, ?_⟩
  simp [tokens?, h]

theorem cuts_spaces (h : ∀ c ∈ cs, isSpace c = true) : Cuts P cs [] := by
  induction cs with
  | nil => exact cuts_nil
  | cons c cs ih =>
      obtain ⟨hc, hcs⟩ := List.forall_mem_cons.mp h
      exact (cuts_space (P := fun _ => True) hc).append (ih hcs) fun _ _ => trivial

theorem cuts_newline (depth : Nat) : Cuts P (newline depth).toList [] := by
  apply cuts_spaces
  intro c hc
  simp only [newline, String.toList_append, String.toList_ofList, List.mem_append,
    List.mem_replicate] at hc
  rcases hc with hc | ⟨_, rfl⟩
  · obtain rfl : c = '\n' := by simpa using hc
    rfl
  · rfl

theorem cuts_punctuation (h : punctuation? c = some t) (hspace : isSpace c = false) :
    Cuts P [c] [t] := by
  intro rest bound _ hbound
  obtain ⟨n, rfl⟩ : ∃ n, bound = n + 1 := ⟨bound - 1, by omega⟩
  refine ⟨n, by simpa using hbound, ?_⟩
  simp [tokens?, h, hspace]

theorem Cuts.space (h : Cuts P ds us) (hc : isSpace c = true) : Cuts P (c :: ds) us :=
  (cuts_space (P := fun _ => True) hc).append h fun _ _ => trivial

theorem Cuts.newline (h : Cuts P ds us) (depth : Nat) :
    Cuts P ((newline depth).toList ++ ds) us :=
  (cuts_newline (P := fun _ => True) depth).append h fun _ _ => trivial

theorem Cuts.mark (h : Cuts P ds us) (hc : punctuation? c = some t) (hspace : isSpace c = false) :
    Cuts P (c :: ds) (t :: us) :=
  (cuts_punctuation (P := fun _ => True) hc hspace).append h fun _ _ => trivial

theorem cuts_scalar (hspace : isSpace c = false) (hpunctuation : punctuation? c = none)
    (h : ∀ rest bound, P rest → (c :: cs ++ rest).length < bound →
      scalar? bound (c :: cs ++ rest) = some (value, rest)) : Cuts P (c :: cs) [.scalar value] := by
  intro rest bound hrest hbound
  have hscalar := h rest bound hrest hbound
  obtain ⟨n, rfl⟩ : ∃ n, bound = n + 1 := ⟨bound - 1, by omega⟩
  refine ⟨n, by simp only [List.length_append, List.length_cons] at hbound; omega, ?_⟩
  rw [List.cons_append] at hscalar ⊢
  simp [tokens?, hspace, hpunctuation, hscalar]

theorem length_le_flatMap_escapeChar (cs : List Char) :
    cs.length ≤ (cs.flatMap escapeChar).length := by
  induction cs with
  | nil => exact Nat.le_refl 0
  | cons c cs ih =>
      have hc : 1 ≤ (escapeChar c).length := by
        rcases escapeChar_cases c with ⟨ds, hc, _⟩ | ⟨hc, _⟩ <;> simp [hc]
      rw [List.flatMap_cons, List.length_append, List.length_cons]
      omega

theorem cuts_quoted (s : String) : Cuts P (quoted s).toList [.scalar (.text s)] := by
  have hquoted : (quoted s).toList = '"' :: (s.toList.flatMap escapeChar ++ ['"']) := by
    simp [quoted]
  rw [hquoted]
  apply cuts_scalar rfl rfl
  intro rest bound _ hbound
  have hlength := length_le_flatMap_escapeChar s.toList
  have hstring : string? bound (s.toList.flatMap escapeChar ++ '"' :: rest) =
      some (s.toList, rest) := by
    apply string?_flatMap_escapeChar
    simp only [List.length_append, List.length_cons] at hbound
    omega
  simp [scalar?, hstring]

theorem scalar?_of_isDigit {bound : Nat} (h : c.isDigit = true) :
    scalar? bound (c :: cs) = unsigned? false (c :: cs) := by
  unfold scalar?
  split
  all_goals first
    | rfl
    | next heq =>
        obtain ⟨rfl, _⟩ := List.cons.inj heq
        exact absurd h (by decide)

theorem digit_cases (h : c.isDigit = true) : isSpace c = false ∧ punctuation? c = none := by
  constructor
  · apply Bool.eq_false_iff.mpr
    intro hspace
    simp only [isSpace, Bool.or_eq_true, beq_iff_eq] at hspace
    rcases hspace with ((rfl | rfl) | rfl) | rfl <;> exact absurd h (by decide)
  · unfold punctuation?
    split
    all_goals first
      | rfl
      | exact absurd h (by decide)

theorem cuts_nat {n : Nat} (h : n < wordBound) :
    Cuts (endsNumber · = true) (Nat.toDigits 10 n) [.scalar (.int n)] := by
  obtain ⟨c, cs, hcs⟩ := List.exists_cons_of_ne_nil (Nat.toDigits_ne_nil (b := 10) (n := n))
  have hc : c.isDigit = true := isDigit_of_mem_toDigits (n := n) (by simp [hcs])
  have hint : ofInt n = .int n := by
    simp only [wordBound] at h
    rw [ofInt, if_pos ⟨by simp only [minInt]; omega, by simp only [maxInt]; omega⟩]
  rw [hcs]
  apply cuts_scalar (digit_cases hc).1 (digit_cases hc).2
  intro rest bound hrest _
  rw [List.cons_append, scalar?_of_isDigit hc, ← List.cons_append, ← hcs,
    unsigned?_toDigits false h nofun hrest, if_neg Bool.false_ne_true, hint]

theorem cuts_negative {n : Nat} (h : minInt ≤ Int.negSucc n) :
    Cuts (endsNumber · = true) ('-' :: Nat.toDigits 10 (n + 1))
      [.scalar (.int (Int.negSucc n))] := by
  have hfits : n + 1 < wordBound := by
    simp only [minInt, wordBound] at *
    omega
  have hint : ofInt (-((n + 1 : Nat) : Int)) = .int (Int.negSucc n) := by
    have hneg : -((n + 1 : Nat) : Int) = Int.negSucc n := rfl
    rw [hneg, ofInt, if_pos ⟨h, by simp only [maxInt]; omega⟩]
  apply cuts_scalar rfl rfl
  intro rest bound hrest _
  rw [List.cons_append]
  simp only [scalar?]
  rw [unsigned?_toDigits true hfits (fun _ => Nat.succ_pos n) hrest, if_pos rfl, hint]

theorem cuts_int {n : Int} (hlow : minInt ≤ n) (hhigh : n ≤ maxInt) :
    Cuts (endsNumber · = true) (toString n).toList [.scalar (.int n)] := by
  cases n with
  | ofNat n =>
      have htext : (toString (Int.ofNat n)).toList = Nat.toDigits 10 n := by
        simp [toString, Int.repr, Nat.repr]
      rw [htext]
      apply cuts_nat
      have hle := Int.ofNat_le.mp (show ((n : Nat) : Int) ≤ (18446744073709551615 : Nat) from hhigh)
      simp only [wordBound]
      omega
  | negSucc n =>
      have htext : (toString (Int.negSucc n)).toList = '-' :: Nat.toDigits 10 (n + 1) := by
        simp [toString, Int.repr, Nat.repr]
      rw [htext]
      exact cuts_negative hlow

theorem endsNumber_newline (depth : Nat) (rest : List Char) :
    endsNumber ((newline depth).toList ++ rest) = true := by
  simp [newline, endsNumber]

theorem endsNumber_renderItems (depth : Nat) (items : List Json) (rest : List Char)
    (h : endsNumber rest = true) :
    endsNumber ((renderItems depth items).toList ++ rest) = true := by
  cases items with
  | nil => simpa [renderItems] using h
  | cons j items => simp [renderItems, endsNumber]

theorem endsNumber_renderFields (depth : Nat) (fields : List (String × Json)) (rest : List Char)
    (h : endsNumber rest = true) :
    endsNumber ((renderFields depth fields).toList ++ rest) = true := by
  cases fields with
  | nil => simpa [renderFields] using h
  | cons f fields => simp [renderFields, endsNumber]

/-- The printed form of a value is cut into its tokens. -/
abbrev CutsValue (j : Json) : Prop :=
  ∀ depth, Cuts (endsNumber · = true) (render depth j).toList (tokensOf j)

theorem cuts_items (h : ∀ j ∈ items, CutsValue j) (depth : Nat) :
    Cuts (endsNumber · = true) (renderItems depth items).toList (itemTokens items) := by
  induction items with
  | nil => simpa [renderItems, itemTokens] using cuts_nil
  | cons j rest ih =>
      obtain ⟨hj, hrest⟩ := List.forall_mem_cons.mp h
      have hvalues := (hj depth).append (ih hrest) (endsNumber_renderItems depth rest)
      have hall := (hvalues.newline depth).mark (c := ',') (t := .comma) rfl rfl
      simpa [renderItems, itemTokens] using hall

/-- A name stands before a colon, a blank and a value. -/
theorem Cuts.member (h : Cuts P ds us) (name : String) :
    Cuts P ((quoted name).toList ++ ':' :: ' ' :: ds) (.scalar (.text name) :: .colon :: us) :=
  (cuts_quoted (P := fun _ => True) name).append
    ((h.space (c := ' ') rfl).mark (c := ':') (t := .colon) rfl rfl) fun _ _ => trivial

theorem cuts_fields (h : ∀ f ∈ fields, CutsValue f.2) (depth : Nat) :
    Cuts (endsNumber · = true) (renderFields depth fields).toList (fieldTokens fields) := by
  induction fields with
  | nil => simpa [renderFields, fieldTokens] using cuts_nil
  | cons f rest ih =>
      obtain ⟨hj, hrest⟩ := List.forall_mem_cons.mp h
      have hvalues := (hj depth).append (ih hrest) (endsNumber_renderFields depth rest)
      have hall := ((hvalues.member f.1).newline depth).mark (c := ',') (t := .comma) rfl rfl
      simpa [renderFields, fieldTokens] using hall

theorem Readable.cuts (h : Readable depth j) : CutsValue j := by
  induction h with
  | null =>
      intro depth
      have hnull : Cuts (endsNumber · = true) ['n', 'u', 'l', 'l'] [.scalar .null] :=
        cuts_scalar rfl rfl fun _ _ _ _ => rfl
      simpa [render, tokensOf] using hnull
  | bool _ b =>
      intro depth
      have htrue : Cuts (endsNumber · = true) ['t', 'r', 'u', 'e'] [.scalar (.bool true)] :=
        cuts_scalar rfl rfl fun _ _ _ _ => rfl
      have hfalse : Cuts (endsNumber · = true) ['f', 'a', 'l', 's', 'e'] [.scalar (.bool false)] :=
        cuts_scalar rfl rfl fun _ _ _ _ => rfl
      cases b with
      | true => simpa [render, tokensOf] using htrue
      | false => simpa [render, tokensOf] using hfalse
  | int hlow hhigh => exact fun _ => cuts_int hlow hhigh
  | text _ s => exact fun _ => cuts_quoted s
  | @list _ items _ ih =>
      intro depth
      have hclose : Cuts (endsNumber · = true) [']'] [.closeList] := cuts_punctuation rfl rfl
      cases items with
      | nil => simpa [render, tokensOf] using hclose.mark (c := '[') (t := .openList) rfl rfl
      | cons j rest =>
          obtain ⟨hj, hrest⟩ := List.forall_mem_cons.mp ih
          have hend := hclose.newline depth
          have hitems := (cuts_items hrest (depth + 1)).append hend fun rest _ => by
            rw [List.append_assoc]
            exact endsNumber_newline depth _
          have hvalues := (hj (depth + 1)).append hitems fun rest h => by
            rw [List.append_assoc, List.append_assoc]
            exact endsNumber_renderItems _ _ _ (endsNumber_newline depth _)
          have hall := (hvalues.newline (depth + 1)).mark (c := '[') (t := .openList) rfl rfl
          simpa [render, tokensOf] using hall
  | @object _ fields _ _ ih =>
      intro depth
      have hclose : Cuts (endsNumber · = true) ['\x7d'] [.closeObject] := cuts_punctuation rfl rfl
      cases fields with
      | nil =>
          simpa [render, tokensOf] using hclose.mark (c := '\x7b') (t := .openObject) rfl rfl
      | cons f rest =>
          obtain ⟨hf, hrest⟩ := List.forall_mem_cons.mp ih
          have hend := hclose.newline depth
          have hfields := (cuts_fields hrest (depth + 1)).append hend fun rest _ => by
            rw [List.append_assoc]
            exact endsNumber_newline depth _
          have hvalues := (hf (depth + 1)).append hfields fun rest h => by
            rw [List.append_assoc, List.append_assoc]
            exact endsNumber_renderFields _ _ _ (endsNumber_newline depth _)
          have hall := ((hvalues.member f.1).newline (depth + 1)).mark (c := '\x7b')
            (t := .openObject) rfl rfl
          simpa [render, tokensOf] using hall

theorem Readable.tokens?_print (h : Readable depth j) :
    tokens? (j.print.length + 1) j.print.toList = some (tokensOf j) := by
  have hlength : (j.print.toList ++ []).length < j.print.length + 1 := by
    rw [List.append_nil, String.length_toList]
    exact Nat.lt_succ_self _
  obtain ⟨bound, hbound, htokens⟩ := h.cuts 0 [] (j.print.length + 1) rfl hlength
  obtain ⟨n, rfl⟩ : ∃ n, bound = n + 1 := ⟨bound - 1, by simp at hbound; omega⟩
  simpa [print, tokens?] using htokens

/-! ## Putting the tokens together -/

/-- A list begins with its first item as any value begins. -/
theorem foldlM_listStart :
    (tokensOf j).foldlM State.step? (.listStart frames) =
      (tokensOf j).foldlM State.step? (.value (.list [] :: frames)) := by
  cases j with
  | list items => cases items <;> rfl
  | object fields => cases fields <;> rfl
  | _ => rfl

/-- The tokens of a value hand it to the containers that are open, while these do not nest too
deeply. -/
abbrev Delivers (depth : Nat) (j : Json) : Prop :=
  ∀ frames : List Frame, frames.length + depth ≤ maxNesting →
    (tokensOf j).foldlM State.step? (.value frames) = some (.deliver j frames)

theorem foldlM_itemTokens {before : List Json} (h : ∀ j ∈ items, Delivers depth j)
    (hdepth : frames.length + (depth + 1) ≤ maxNesting) :
    (itemTokens items).foldlM State.step? (.afterItem before frames) =
      some (.afterItem (items.reverse ++ before) frames) := by
  induction items generalizing before with
  | nil => rfl
  | cons j rest ih =>
      obtain ⟨hj, hrest⟩ := List.forall_mem_cons.mp h
      have hvalue := hj (.list before :: frames) (by simp only [List.length_cons]; omega)
      simp only [itemTokens, List.foldlM_cons, State.step?, Option.bind_eq_bind, Option.bind_some,
        List.foldlM_append, hvalue, State.deliver]
      rw [ih hrest]
      simp

theorem foldlM_fieldTokens {before : List (String × Json)} (h : ∀ f ∈ fields, Delivers depth f.2)
    (hdepth : frames.length + (depth + 1) ≤ maxNesting) :
    (fieldTokens fields).foldlM State.step? (.afterField before frames) =
      some (.afterField (fields.reverse ++ before) frames) := by
  induction fields generalizing before with
  | nil => rfl
  | cons f rest ih =>
      obtain ⟨hj, hrest⟩ := List.forall_mem_cons.mp h
      have hvalue := hj (.object before f.1 :: frames) (by simp only [List.length_cons]; omega)
      simp only [fieldTokens, List.foldlM_cons, State.step?, Option.bind_eq_bind, Option.bind_some,
        List.foldlM_append, hvalue, State.deliver]
      rw [ih hrest]
      simp

theorem Readable.delivers (h : Readable depth j) : Delivers depth j := by
  induction h with
  | null => exact fun _ _ => rfl
  | bool => exact fun _ _ => rfl
  | int => exact fun _ _ => rfl
  | text => exact fun _ _ => rfl
  | @list depth items _ ih =>
      intro frames hdepth
      have hopen : State.begin? frames .openList = some (.listStart frames) :=
        if_pos (by omega)
      cases items with
      | nil =>
          simp only [tokensOf, List.foldlM_cons, State.step?, hopen]
          rfl
      | cons j rest =>
          obtain ⟨hj, hrest⟩ := List.forall_mem_cons.mp ih
          have hfirst := hj (.list [] :: frames) (by simp only [List.length_cons]; omega)
          simp only [tokensOf, List.foldlM_cons, State.step?, hopen, Option.bind_eq_bind,
            Option.bind_some, List.foldlM_append, foldlM_listStart, hfirst, State.deliver,
            foldlM_itemTokens hrest hdepth]
          simp
  | @object depth fields _ _ ih =>
      intro frames hdepth
      have hopen : State.begin? frames .openObject = some (.objectStart frames) :=
        if_pos (by omega)
      cases fields with
      | nil =>
          simp only [tokensOf, List.foldlM_cons, State.step?, hopen]
          rfl
      | cons f rest =>
          obtain ⟨hj, hrest⟩ := List.forall_mem_cons.mp ih
          have hfirst := hj (.object [] f.1 :: frames) (by simp only [List.length_cons]; omega)
          simp only [tokensOf, List.foldlM_cons, State.step?, hopen, Option.bind_eq_bind,
            Option.bind_some, List.foldlM_append, hfirst, State.deliver,
            foldlM_fieldTokens hrest hdepth]
          simp

/-- A printed document is read back. -/
theorem Readable.read?_print (h : Readable maxNesting j) : read? j.print = some j := by
  have hvalue := h.delivers [] (Nat.le_of_eq (Nat.zero_add _))
  simp only [read?, h.tokens?_print, Option.bind_eq_bind, Option.bind_some, hvalue, State.deliver]

/-! ## Repeated names -/

theorem lastMembers_eq (h : (fields.map Prod.fst).Nodup) : lastMembers fields = fields := by
  induction fields with
  | nil => rfl
  | cons f rest ih =>
      obtain ⟨hnew, hrest⟩ := List.nodup_cons.mp h
      have hlast : (rest.any fun g => g.1 == f.1) = false := by
        rw [List.any_eq_false]
        intro g hg heq
        exact hnew (List.mem_map.mpr ⟨g, hg, by simpa using heq⟩)
      rw [lastMembers, hlast, ih hrest]
      rfl

theorem distinctItems_eq (h : ∀ j ∈ items, distinct j = j) : distinctItems items = items := by
  induction items with
  | nil => rfl
  | cons j rest ih =>
      obtain ⟨hj, hrest⟩ := List.forall_mem_cons.mp h
      rw [distinctItems, hj, ih hrest]

theorem distinctFields_eq (h : ∀ f ∈ fields, distinct f.2 = f.2) :
    distinctFields fields = fields := by
  induction fields with
  | nil => rfl
  | cons f rest ih =>
      obtain ⟨hj, hrest⟩ := List.forall_mem_cons.mp h
      rw [distinctFields, hj, ih hrest]

theorem Readable.distinct_eq (h : Readable depth j) : distinct j = j := by
  induction h with
  | null => rfl
  | bool => rfl
  | int => rfl
  | text => rfl
  | list _ ih => rw [distinct, distinctItems_eq ih]
  | object _ hnames ih => rw [distinct, distinctFields_eq ih, lastMembers_eq hnames]

theorem Readable.readDistinct?_print (h : Readable maxNesting j) :
    readDistinct? j.print = some j := by
  rw [readDistinct?, h.read?_print, Option.map_some, h.distinct_eq]

end GrammarEngine.Json
