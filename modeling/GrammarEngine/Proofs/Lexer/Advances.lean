import GrammarEngine.Lexer.Tokenize
import GrammarEngine.Proofs.Text
import Mathlib.Data.List.Pairwise

/-!
# How a lexer advances

A lexer advances by winning matches, and by one character where there is none. The pieces of a text
are read off the advances, of which those that are to be continued yield no piece. Each advance goes
on where the last one stopped, so together they read the whole text, and each begins with what is
pending: at the start of the advance before if that was to be continued, else where it stands.
-/
namespace GrammarEngine

/-- One advance: where its piece began, where it stood, where it stopped, and what its match adds up
to. There is no match where no rule wins. -/
structure Advance where
  start : Place
  here : Place
  stop : Place
  effect : Option MatchEffect
deriving Repr, DecidableEq

namespace Advance

/-- Whether the next advance belongs to the same piece. -/
def isContinued (a : Advance) : Bool := a.effect.any MatchEffect.more

/-- Whether the actions of the match include one to skip it. -/
def isSkipped (a : Advance) : Bool := a.effect.any MatchEffect.skip

/-- Where the next piece has begun already. -/
def pending (a : Advance) : Option Place := if a.isContinued then some a.start else none

def piece? (a : Advance) : Option Piece :=
  match a.effect with
  | none => some ⟨a.start, a.stop, .unrecognized⟩
  | some e => e.kind?.map fun kind => ⟨a.start, a.stop, kind⟩

theorem piece?_of_unmatched (start here stop : Place) :
    (⟨start, here, stop, none⟩ : Advance).piece? = some ⟨start, stop, .unrecognized⟩ ∧
      (⟨start, here, stop, none⟩ : Advance).pending = none := ⟨rfl, rfl⟩

/-- A match that is to be continued leaves the start of its piece pending. -/
theorem piece?_of_continued {e : MatchEffect} (h : e.kind? = none) (start here stop : Place) :
    (⟨start, here, stop, some e⟩ : Advance).piece? = none ∧
      (⟨start, here, stop, some e⟩ : Advance).pending = some start := by
  have hmore : e.more = true := by
    unfold MatchEffect.kind? at h
    split at h
    · assumption
    · split at h <;> cases h
  exact ⟨by simp [piece?, h], by simp [pending, isContinued, hmore]⟩

theorem piece?_of_finished {e : MatchEffect} {kind : PieceKind} (h : e.kind? = some kind)
    (start here stop : Place) :
    (⟨start, here, stop, some e⟩ : Advance).piece? = some ⟨start, stop, kind⟩ ∧
      (⟨start, here, stop, some e⟩ : Advance).pending = none := by
  have hmore : e.more = false := by
    by_contra hmore
    simp [MatchEffect.kind?, hmore] at h
  exact ⟨by simp [piece?, h], by simp [pending, isContinued, hmore]⟩

end Advance

namespace LexerProgram

/-- The advances over a text that starts at a place, with what is pending there. -/
def advances (p : LexerProgram) (folding : CaseFolding) (modes : ModeState)
    (pending : Option Place) (here : Place) : List Char → List Advance
  | [] => []
  | c :: tail =>
    let start := pending.getD here
    match p.winner? folding.fold modes.current (c :: tail) with
    | none =>
      let a : Advance := ⟨start, here, here.after [c], none⟩
      a :: advances p folding modes a.pending a.stop tail
    | some w =>
      let effect := w.effect modes
      let a : Advance := ⟨start, here, here.after (c :: tail.take (w.length - 1)), some effect⟩
      a :: advances p folding effect.modes a.pending a.stop (tail.drop (w.length - 1))
termination_by text => text.length
decreasing_by all_goals (simp only [List.length_cons, List.length_drop]; omega)

variable {p : LexerProgram} {folding : CaseFolding} {modes : ModeState} {pending : Option Place}
  {here : Place} {text : List Char}

/-- The pieces of a text are those of the advances over it. -/
theorem pieces_eq : p.pieces folding modes pending here text =
    (p.advances folding modes pending here text).filterMap Advance.piece? := by
  fun_induction pieces p folding modes pending here text with
  | case1 => rw [advances, List.filterMap_nil]
  | case2 modes pending here c tail start hnone next ih =>
      obtain ⟨hpiece, hpending⟩ := Advance.piece?_of_unmatched start here next
      rw [advances, hnone]
      simp only
      rw [List.filterMap_cons_some hpiece, hpending, ih]
  | case3 modes pending here c tail start w hw effect next rest hkind ih =>
      obtain ⟨hpiece, hpending⟩ := Advance.piece?_of_continued hkind start here next
      rw [advances, hw]
      simp only
      rw [List.filterMap_cons_none hpiece, hpending, ih]
  | case4 modes pending here c tail start w hw effect next rest kind hkind ih =>
      obtain ⟨hpiece, hpending⟩ := Advance.piece?_of_finished hkind start here next
      rw [advances, hw]
      simp only
      rw [List.filterMap_cons_some hpiece, hpending, ih]

/-! ## The way through a text -/

/-- Advances that read a text from a place on, at which a piece may be pending. -/
inductive Trail : Option Place → Place → List Char → List Advance → Prop
  | nil (pending : Option Place) (here : Place) : Trail pending here [] []
  | cons {pending : Option Place} {here : Place} {a : Advance} {cs ds : List Char}
      {rest : List Advance} :
      cs ≠ [] → a.start = pending.getD here → a.here = here → a.stop = here.after cs →
      Trail a.pending a.stop ds rest → Trail pending here (cs ++ ds) (a :: rest)

theorem advances_trail : Trail pending here text (p.advances folding modes pending here text) := by
  fun_induction advances p folding modes pending here text with
  | case1 modes pending here => exact .nil pending here
  | case2 modes pending here c tail start hnone a ih =>
      exact .cons (List.cons_ne_nil c []) rfl rfl rfl ih
  | case3 modes pending here c tail start w hw effect a ih =>
      have hsplit : c :: tail = (c :: tail.take (w.length - 1)) ++ tail.drop (w.length - 1) := by
        rw [List.cons_append, List.take_append_drop]
      rw [hsplit]
      exact .cons (List.cons_ne_nil c _) rfl rfl rfl ih

variable {as : List Advance}

/-- Every advance reads a character. -/
theorem Trail.length_le (h : Trail pending here text as) : as.length ≤ text.length := by
  induction h with
  | nil => exact Nat.le_refl 0
  | @cons _ _ _ cs _ _ hcs _ _ _ _ ih =>
      have hpos : 0 < cs.length := List.length_pos_iff.mpr hcs
      rw [List.length_cons, List.length_append]
      omega

theorem Trail.eq_nil (h : Trail pending here text []) : text = [] := by
  cases h
  rfl

end LexerProgram

/-! ## Places of a text -/

namespace Place

variable {whole cs ds : List Char} {p : Place}

@[simp] theorem offset_after (p : Place) (cs : List Char) :
    (p.after cs).offset = p.offset + cs.length := rfl

/-- A place of a text is the place after what the text has before it. -/
structure In (whole : List Char) (p : Place) : Prop where
  le : p.offset ≤ whole.length
  eq : p = Place.after {} (whole.take p.offset)

theorem in_after (cs ds : List Char) : In (cs ++ ds) (Place.after {} cs) where
  le := by simp
  eq := by simp

theorem In.behind (h : In whole p) : p.position.Behind (whole.take p.offset) := by
  have hposition : p.position = InputPosition.after {} (whole.take p.offset) :=
    congrArg Place.position h.eq
  rw [hposition]
  exact InputPosition.behind_after _

end Place

/-- Where an advance lies in a text. -/
structure Advance.Within (whole : List Char) (a : Advance) : Prop where
  start : a.start.In whole
  stop : a.stop.In whole
  le : a.start.offset ≤ a.here.offset
  lt : a.here.offset < a.stop.offset

namespace LexerProgram

variable {pending : Option Place} {here : Place} {text before : List Char} {as : List Advance}

/-- Advances from a place of a text on lie in the text. -/
theorem Trail.within (h : Trail pending here text as) (hhere : here = Place.after {} before)
    (hpending : (pending.getD here).In (before ++ text))
    (hle : (pending.getD here).offset ≤ here.offset) : ∀ a ∈ as, a.Within (before ++ text) := by
  induction h generalizing before with
  | nil => simp
  | @cons pending here a cs ds rest hcs hstart hat hstop _ ih =>
      have hpos : 0 < cs.length := List.length_pos_iff.mpr hcs
      have hafter : a.stop = Place.after {} (before ++ cs) := by
        rw [hstop, hhere, Place.after_append]
      have hin : a.stop.In (before ++ (cs ++ ds)) := by
        rw [hafter, ← List.append_assoc]
        exact Place.in_after _ _
      have hlt : here.offset < a.stop.offset := by
        rw [hstop, Place.offset_after]
        omega
      have ha : a.Within (before ++ (cs ++ ds)) :=
        ⟨hstart ▸ hpending, hin, by rw [hstart, hat]; exact hle, by rw [hat]; exact hlt⟩
      have hnext : (a.pending.getD a.stop).In (before ++ (cs ++ ds)) ∧
          (a.pending.getD a.stop).offset ≤ a.stop.offset := by
        unfold Advance.pending
        split
        · exact ⟨ha.start, Nat.le_trans ha.le (Nat.le_of_lt ha.lt)⟩
        · exact ⟨hin, Nat.le_refl _⟩
      rw [← List.append_assoc] at hnext ha ⊢
      exact List.forall_mem_cons.mpr ⟨ha, ih hafter hnext.1 hnext.2⟩

/-- Later pieces begin where earlier ones have ended. -/
theorem Trail.ordered (h : Trail pending here text as)
    (hle : (pending.getD here).offset ≤ here.offset) :
    (∀ a ∈ as, (pending.getD here).offset ≤ a.start.offset) ∧
      as.Pairwise fun a b => a.isContinued = false → a.stop.offset ≤ b.start.offset := by
  induction h with
  | nil => exact ⟨by simp, .nil⟩
  | @cons pending here a cs ds rest hcs hstart hat hstop _ ih =>
      have hbegin : a.start.offset = (pending.getD here).offset := by rw [hstart]
      have hend : here.offset ≤ a.stop.offset := by
        rw [hstop, Place.offset_after]
        omega
      have hfrom : a.start.offset ≤ (a.pending.getD a.stop).offset ∧
          (a.pending.getD a.stop).offset ≤ a.stop.offset := by
        unfold Advance.pending
        split
        · simp only [Option.getD_some]
          omega
        · simp only [Option.getD_none]
          omega
      obtain ⟨hlater, hpairs⟩ := ih hfrom.2
      refine ⟨List.forall_mem_cons.mpr ⟨Nat.le_of_eq hbegin.symm, fun b hb => ?_⟩, .cons ?_ hpairs⟩
      · have := hlater b hb
        omega
      · intro b hb hfinished
        have := hlater b hb
        simpa [Advance.pending, hfinished] using this

end LexerProgram

end GrammarEngine
