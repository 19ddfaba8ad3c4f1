import GrammarEngine.Grammar.Lexeme
import GrammarEngine.Proofs.Checked

/-!
# Spelling of lexemes

Names in a grammar file are words of ASCII letters, digits and underscores.
-/
namespace GrammarEngine

/-- One word character or more. -/
def IsWord (name : String) : Prop :=
  name.toList ≠ [] ∧ ∀ c ∈ name.toList, Text.isWordChar c = true

namespace Lexeme

/-- The names of lexemes are words. -/
def Spelled (l : Lexeme) : Prop := ∀ name, l.name? = some name → IsWord name

theorem isWord_cons {c : Char} {rest : List Char} (hc : Text.isWordChar c = true) :
    IsWord (String.ofList (c :: rest.takeWhile Text.isWordChar)) := by
  refine ⟨by simp, fun d hd => ?_⟩
  rw [String.toList_ofList] at hd
  rcases List.mem_cons.mp hd with rfl | hd
  · exact hc
  · exact List.all_eq_true.mp List.all_takeWhile d hd

theorem isWordChar_of_isUpper {c : Char} (h : c.isUpper = true) : Text.isWordChar c = true := by
  have hletter : c.isAlpha = (c.isUpper || c.isLower) := rfl
  simp [Text.isWordChar, Char.isAlphanum, hletter, h]

theorem isWordChar_of_isLower {c : Char} (h : c.isLower = true) : Text.isWordChar c = true := by
  have hletter : c.isAlpha = (c.isUpper || c.isLower) := rfl
  simp [Text.isWordChar, Char.isAlphanum, hletter, h]

theorem spelled_wordLexeme {word : String} (h : IsWord word) : (wordLexeme word).Spelled := by
  intro name hname
  unfold wordLexeme at hname
  split at hname
  · cases hname
  · exact Option.some.inj hname ▸ h

theorem signCut_spelled {c : Char} {rest : List Char} {l : Lexeme} {n : Nat}
    (h : signCut c rest = .lexeme l n) : l.Spelled := by
  have hsign : ∃ s, l = .sign s := by
    unfold signCut at h
    split at h
    all_goals first
      | exact ⟨_, (Cut.lexeme.inj h).1.symm⟩
      | cases h
  obtain ⟨s, rfl⟩ := hsign
  nofun

theorem cut_spelled {c : Char} {rest : List Char} {l : Lexeme} {n : Nat}
    (h : cut c rest = .lexeme l n) : l.Spelled := by
  unfold cut at h
  split at h
  · cases h
  split at h
  · split at h
    · cases h
    · split at h <;> cases h
    · cases h
  split at h
  · next hupper =>
    obtain ⟨rfl, -⟩ := Cut.lexeme.inj h
    intro name hname
    exact Option.some.inj hname ▸ isWord_cons (isWordChar_of_isUpper hupper)
  split at h
  · next hlower =>
    obtain ⟨rfl, -⟩ := Cut.lexeme.inj h
    exact spelled_wordLexeme (isWord_cons (isWordChar_of_isLower hlower))
  split at h
  · obtain ⟨rfl, -⟩ := Cut.lexeme.inj h
    nofun
  split at h
  · split at h
    · obtain ⟨rfl, -⟩ := Cut.lexeme.inj h
      nofun
    · cases h
  split at h
  · split at h
    · obtain ⟨rfl, -⟩ := Cut.lexeme.inj h
      nofun
    · cases h
  split at h
  · split at h
    · obtain ⟨rfl, -⟩ := Cut.lexeme.inj h
      nofun
    · cases h
  · exact signCut_spelled h

theorem scanFrom_spelled {p : Position} {cs : List Char} {ls : List Placed}
    (h : scanFrom p cs = .ok ls) : ∀ l ∈ ls, l.lexeme.Spelled := by
  induction p, cs using scanFrom.induct generalizing ls with
  | case1 p =>
      rw [scanFrom] at h
      cases h
      simp
  | case2 p c rest n hcut ih =>
      rw [scanFrom, hcut] at h
      exact ih h
  | case3 p c rest l n hcut ih =>
      rw [scanFrom, hcut] at h
      obtain ⟨more, hmore, rfl⟩ := map_eq_ok.mp h
      exact List.forall_mem_cons.mpr ⟨cut_spelled hcut, ih hmore⟩
  | case4 p c rest n hcut =>
      rw [scanFrom, hcut] at h
      cases h

end Lexeme

end GrammarEngine
