import GrammarEngine.Proofs.Notation.Reading
import GrammarEngine.Unit.Form
import Mathlib.Algebra.Group.Nat.Defs

/-!
# Reading written forms

A form that is written on one line, and a unit that is laid out over several lines, are read back
as the same form. Their characters are a sequence of the notation, whatever stands before them, if
what stands behind them ends an atom.
-/
namespace GrammarEngine

/-- A name that is read as a symbol: an atom that is no numeral. -/
def Form.isName (name : String) : Bool :=
  !name.toList.isEmpty && name.toList.all (fun c => !Sexpr.isDelimiter c) &&
    (Sexpr.numeralDigits? name.toList).isNone

/-- A form that can be read where lists may still nest to a depth. -/
inductive Form.Readable : Nat → Form → Prop
  | symbol {depth : Nat} {name : String} : isName name = true → Readable depth (.symbol name)
  | text (depth : Nat) (content : String) : Readable depth (.text content)
  | nat {depth n : Nat} : n < 2 ^ 63 → Readable depth (.nat n)
  | list {depth : Nat} {items : List Form} :
      (∀ f ∈ items, Readable depth f) → Readable (depth + 1) (.list items)

theorem Form.Readable.mono {depth depth' : Nat} {f : Form} (h : f.Readable depth)
    (hle : depth ≤ depth') : f.Readable depth' := by
  induction h generalizing depth' with
  | symbol hname => exact .symbol hname
  | text => exact .text _ _
  | nat hn => exact .nat hn
  | @list depth items _ ih =>
      obtain ⟨d, rfl⟩ : ∃ d, depth' = d + 1 := ⟨depth' - 1, by omega⟩
      exact .list fun f hf => ih f hf (by omega)

namespace Sexpr

variable {depth : Nat} {before rest : List Char}

/-! ## Atoms -/

theorem isDelimiter_of_isDigit {c : Char} (h : c.isDigit = true) : isDelimiter c = false := by
  obtain ⟨hlow, hhigh⟩ : 48 ≤ c.toNat ∧ c.toNat ≤ 57 := by
    simpa [Char.isDigit, UInt32.le_iff_toNat_le] using h
  have hne : ∀ d : Char, d.toNat < 48 ∨ 57 < d.toNat → (c == d) = false := by
    intro d hd
    simp only [beq_eq_false_iff_ne, ne_eq]
    rintro rfl
    omega
  have hblank : Text.isBlank c = false := by
    simp [Text.isBlank]
    omega
  simp [isDelimiter, hblank, hne '(' (by decide), hne ')' (by decide), hne '"' (by decide),
    hne ';' (by decide)]

theorem toList_toString_nat (n : Nat) : (toString (n : Int)).toList = Nat.toDigits 10 n := by
  rw [Int.toString_eq_repr, Int.repr_eq_if, if_pos (by omega), Int.toNat_natCast, Nat.toList_repr]

theorem written_nat {n : Nat} (h : n < 2 ^ 63) (hends : Ends rest) :
    Written depth before (toString (n : Int)).toList rest (.int (.after {} before) n) := by
  rw [toList_toString_nat]
  have hvalue : Text.digitsValue? 10 Text.decimalValue? (Nat.toDigits 10 n) = some n :=
    Text.digitsValue?_toDigits (by decide) (by decide) n
  have hnumeral : Numeral (Nat.toDigits 10 n) n := .natural Nat.toDigits_ne_nil hvalue
  exact .atom Nat.toDigits_ne_nil
    (fun c hc => isDelimiter_of_isDigit (isDigit_of_digitsValue? hvalue c hc)) hends
    (Position.behind_after before) (.int hnumeral (by omega) (by omega))

theorem written_symbol {name : String} (h : Form.isName name = true) (hends : Ends rest) :
    Written depth before name.toList rest (.symbol (.after {} before) name) := by
  simp only [Form.isName, Bool.and_eq_true, Bool.not_eq_true', List.isEmpty_eq_false_iff,
    List.all_eq_true, Option.isNone_iff_eq_none] at h
  obtain ⟨⟨hne, hcs⟩, hnumeral⟩ := h
  have hvalue : AtomValue (.after {} before) name.toList (.symbol (.after {} before) name) :=
    atomValue_eq_ok_iff.mp (by simp [atomValue, hnumeral])
  exact .atom hne (fun c hc => by simpa using hcs c hc) hends (Position.behind_after before) hvalue

/-! ## Strings -/

theorem Content.cons_quoteChar {c : Char} {cs content : List Char} (h : Content cs content) :
    Content (Text.quoteChar c ++ cs) (c :: content) := by
  unfold Text.quoteChar
  split
  · next hc =>
    obtain rfl := beq_iff_eq.mp hc
    exact .escaped .quote h
  split
  · next hc =>
    obtain rfl := beq_iff_eq.mp hc
    exact .escaped .backslash h
  split
  · next hc =>
    obtain rfl := beq_iff_eq.mp hc
    exact .escaped .lineFeed h
  split
  · next hc =>
    obtain rfl := beq_iff_eq.mp hc
    exact .escaped .carriageReturn h
  split
  · next hc =>
    obtain rfl := beq_iff_eq.mp hc
    exact .escaped .tab h
  split
  · have hcode : Literal.Hexadecimal (Text.hexDigits c.toNat) c :=
      ⟨Nat.toDigits_ne_nil, Text.digitsValue?_toDigits (by decide) (by decide) c.toNat⟩
    exact .escaped (.code hcode) h
  · next hquote hbackslash _ _ _ _ =>
    exact .plain (by simpa using hquote) (by simpa using hbackslash) h

theorem content_quoteChars (cs : List Char) : Content (cs.flatMap Text.quoteChar) cs := by
  induction cs with
  | nil => exact .nil
  | cons c cs ih => exact ih.cons_quoteChar

theorem written_text (content : String) :
    Written depth before (Text.quote content).toList rest (.text (.after {} before) content) := by
  rw [Text.quote, String.toList_ofList]
  conv => rhs; rw [← String.ofList_toList (s := content)]
  exact .text (Position.behind_after before) (content_quoteChars content.toList)

/-! ## Forms -/

mutual
/-- A form that can be read is written by its characters. -/
theorem exists_written : ∀ (f : Form) {depth : Nat} (before : List Char) {rest : List Char},
    f.Readable depth → Ends rest → ∃ v, Written depth before f.chars rest v ∧ v.form = f
  | .symbol name, _, _, _, h, hends => by
      cases h with
      | symbol hname => exact ⟨_, written_symbol hname hends, rfl⟩
  | .text content, _, _, _, _, _ => ⟨_, written_text content, rfl⟩
  | .int value, _, _, _, h, hends => by
      cases h with
      | nat hn => exact ⟨_, written_nat hn hends, rfl⟩
  | .list fs, _, before, rest, h, _ => by
      cases h with
      | @list depth _ hfs =>
          obtain ⟨items, hitems, hforms⟩ := exists_sequence fs (before ++ ['(']) hfs
            (ends_cons (c := ')') rfl rest)
          exact ⟨_, .list (Position.behind_after before) hitems, by rw [form_list, hforms]⟩

theorem exists_sequence : ∀ (fs : List Form) {depth : Nat} (before : List Char) {rest : List Char},
    (∀ f ∈ fs, f.Readable depth) → Ends rest →
    ∃ xs, Sequence depth before (Form.itemChars fs) rest xs ∧ xs.map Sexpr.form = fs
  | [], _, _, _, _, _ => ⟨[], .nil, rfl⟩
  | [f], _, before, _, h, hends => by
      obtain ⟨v, hv, hform⟩ := exists_written f before (h f List.mem_cons_self) hends
      exact ⟨[v], .single hv, by rw [List.map_singleton, hform]⟩
  | f :: g :: fs, _, before, rest, h, hends => by
      obtain ⟨hf, hfs⟩ := List.forall_mem_cons.mp h
      obtain ⟨v, hv, hform⟩ := exists_written f before hf
        (ends_cons (c := ' ') rfl (Form.itemChars (g :: fs) ++ rest))
      obtain ⟨xs, hxs, hforms⟩ := exists_sequence (g :: fs) (before ++ f.chars ++ [' ']) hfs hends
      exact ⟨v :: xs, .form hv (.blank rfl hxs), by rw [List.map_cons, hform, hforms]⟩
end

/-! ## Units -/

theorem isBlank_of_mem_newLine {level : Nat} {c : Char} (h : c ∈ UnitText.newLine level) :
    Text.isBlank c = true := by
  obtain rfl | h := List.mem_cons.mp h
  · rfl
  · rw [List.eq_of_mem_replicate h]
    rfl

section Lines

variable {α : Type} {chars : α → List Char} {form : α → Form} {ys : List α}

/-- Behind what is followed by lines of their own, or by the end of an atom, an atom ends. -/
theorem ends_lines (level : Nat) (hends : Ends rest) :
    Ends ((ys.flatMap fun y => UnitText.newLine level ++ chars y) ++ rest) := by
  cases ys with
  | nil => exact hends
  | cons y ys => exact ends_cons rfl _

/-- Values that each stand on a line of their own. -/
theorem exists_lines (level : Nat) (before : List Char) (hends : Ends rest)
    (h : ∀ y ∈ ys, ∀ before {rest}, Ends rest →
      ∃ v, Written depth before (chars y) rest v ∧ v.form = form y) :
    ∃ xs, Sequence depth before (ys.flatMap fun y => UnitText.newLine level ++ chars y) rest xs ∧
      xs.map Sexpr.form = ys.map form := by
  induction ys generalizing before with
  | nil => exact ⟨[], .nil, rfl⟩
  | cons y ys ih =>
      obtain ⟨hy, hys⟩ := List.forall_mem_cons.mp h
      obtain ⟨v, hv, hform⟩ := hy (before ++ UnitText.newLine level) (ends_lines level hends)
      obtain ⟨xs, hxs, hforms⟩ := ih (before ++ UnitText.newLine level ++ chars y) hys
      refine ⟨v :: xs, ?_, by rw [List.map_cons, hform, hforms, List.map_cons]⟩
      rw [List.flatMap_cons, List.append_assoc]
      exact .blanks (fun c => isBlank_of_mem_newLine) (.form hv hxs)

/-- Items on one line and further ones on lines of their own, in parentheses. -/
theorem exists_laidOut (level : Nat) (before rest : List Char) {first : List Form}
    (hfirst : ∀ f ∈ first, f.Readable depth)
    (h : ∀ y ∈ ys, ∀ before {rest}, Ends rest →
      ∃ v, Written depth before (chars y) rest v ∧ v.form = form y) :
    ∃ v, Written (depth + 1) before
        ('(' :: (Form.itemChars first ++ ys.flatMap fun y => UnitText.newLine level ++ chars y) ++
          [')']) rest v ∧
      v.form = .list (first ++ ys.map form) := by
  have hclosing : Ends (')' :: rest) := ends_cons rfl rest
  obtain ⟨xs, hxs, hforms⟩ := exists_sequence first (before ++ ['(']) hfirst
    (ends_lines level hclosing)
  obtain ⟨zs, hzs, hrest⟩ := exists_lines level (before ++ ['('] ++ Form.itemChars first) hclosing h
  refine ⟨_, .list (Position.behind_after before) (hxs.append rfl hzs), ?_⟩
  rw [form_list, List.map_append, hforms, hrest]

end Lines

theorem exists_clause {c : Clause} (before rest : List Char) (h : c.form.Readable (depth + 1)) :
    ∃ v, Written (depth + 1) before (UnitText.clauseChars c) rest v ∧ v.form = c.form := by
  cases h with
  | list hfs =>
      obtain ⟨hfirst, hlines⟩ := List.forall_mem_append.mp hfs
      have hline : ∀ f ∈ c.lines, ∀ before {rest}, Ends rest →
          ∃ v, Written depth before f.chars rest v ∧ v.form = id f :=
        fun f hf before _ hends => exists_written f before (hlines f hf) hends
      obtain ⟨v, hv, hform⟩ := exists_laidOut 2 before rest hfirst hline
      exact ⟨v, hv, by rw [hform, List.map_id, Clause.form]⟩

end Sexpr

open Sexpr.ReaderState in
/-- Behind its comment a unit is read from the start of the second line. -/
theorem UnitText.outcome_toString (u : UnitText) (hcomment : '\n' ∉ u.comment.toList) :
    ({} : Sexpr.ReaderState).outcome u.toString.toList =
      ({ position := ⟨2, 0⟩ } : Sexpr.ReaderState).outcome ('(' :: Form.itemChars u.first ++
        u.clauses.flatMap (fun c => newLine 1 ++ clauseChars c) ++ [')', '\n']) := by
  have hline : '\n' ∉ [';', ' '] ++ u.comment.toList := by simpa using hcomment
  have hplace : (((({} : Position).step ';').after ([';', ' '] ++ u.comment.toList)).step '\n') =
      ⟨2, 0⟩ := by
    rw [Position.step, if_pos (beq_self_eq_true _), Position.line_after,
      List.count_eq_zero.mpr hline]
    rfl
  have hsplit : u.chars = ';' :: (([';', ' '] ++ u.comment.toList) ++
      '\n' :: ('(' :: Form.itemChars u.first ++
        u.clauses.flatMap (fun c => newLine 1 ++ clauseChars c) ++ [')', '\n'])) := by
    simp [chars]
  rw [toString, String.toList_ofList, hsplit, outcome_semicolon,
    outcome_comment hline (by simp), outcome_blank (by decide), hplace]

/-- What is read does not depend on a comment of one line. -/
theorem UnitText.readAll_withComment (u : UnitText) {comment : String}
    (hcomment : '\n' ∉ u.comment.toList) (hother : '\n' ∉ comment.toList) :
    Sexpr.readAll { u with comment }.toString = Sexpr.readAll u.toString :=
  (outcome_toString { u with comment } hother).trans (outcome_toString u hcomment).symm

open Sexpr in
/-- A unit that is laid out with a comment of one line is read back as one form. -/
theorem UnitText.readAll_toString (u : UnitText) (hcomment : '\n' ∉ u.comment.toList)
    (h : u.form.Readable Sexpr.maxNesting) :
    ∃ w, Sexpr.readAll u.toString = .ok [w] ∧ w.form = u.form := by
  obtain ⟨depth, hdepth⟩ : ∃ depth, maxNesting = depth + 2 := ⟨maxNesting - 2, rfl⟩
  rw [hdepth] at h
  cases h with
  | list hfs =>
      obtain ⟨hfirst, hclauses⟩ := List.forall_mem_append.mp hfs
      have hline : '\n' ∉ [';', ' '] ++ u.comment.toList := by simpa using hcomment
      have hclause : ∀ c ∈ u.clauses, ∀ before {rest}, Ends rest →
          ∃ v, Written (depth + 1) before (clauseChars c) rest v ∧ v.form = c.form :=
        fun c hc before _ _ => exists_clause before _ (hclauses c.form (List.mem_map_of_mem hc))
      obtain ⟨w, hw, hform⟩ := exists_laidOut 1 (';' :: ([';', ' '] ++ u.comment.toList) ++ ['\n'])
        (['\n'] ++ []) hfirst hclause
      have hend : ∀ before, Sequence (depth + 2) before ['\n'] [] [] := fun _ => .blank rfl .nil
      have hunit : Sequence (depth + 2) [] _ [] [w] :=
        .comment hline (by simp) (.blank (c := '\n') rfl (.form hw (hend _)))
      refine ⟨w, readAll_of_sequence ?_, hform⟩
      rw [hdepth, toString, String.toList_ofList]
      simpa [chars] using hunit

end GrammarEngine
