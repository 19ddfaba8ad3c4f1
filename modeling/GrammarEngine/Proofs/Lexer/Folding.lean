import GrammarEngine.Proofs.Lexer.Streams

/-!
# Case folding changes matching only

A lexer that sees a text through a case folding finds what it would find in the folded text. No
character but the line feed is folded to a line feed, so that both texts have the same lines and the
pieces stand at the same places. What the tokens show is cut from the text as it was given.
-/
namespace GrammarEngine

/-! ## Line feeds -/

namespace Text

variable {c : Char} {runs : List CaseRun} {sequences : List (Nat × List Nat)}

/-- The tables under which no character beyond ASCII has a line feed as its form: runs stay above
it, and the listed forms have several characters. -/
structure KeepLines (runs : List CaseRun) (sequences : List (Nat × List Nat)) : Prop where
  runs : ∀ run ∈ runs, 10 < run.first + run.shift
  sequences : ∀ entry ∈ sequences, 1 < entry.2.length

theorem lower_keepLines : KeepLines lowerRuns lowerSequences where
  runs := by decide +kernel
  sequences := by decide +kernel

theorem upper_keepLines : KeepLines upperRuns upperSequences where
  runs := by decide +kernel
  sequences := by decide +kernel

theorem CaseRun.ofNat_apply_ne {run : CaseRun} {code : Nat} (h : 10 < run.first + run.shift)
    (hcovers : run.covers code = true) : Char.ofNat (run.apply code) ≠ '\n' := by
  simp only [covers, Bool.and_eq_true, decide_eq_true_eq] at hcovers
  have hcode : run.apply code ≠ 10 := by
    unfold apply
    omega
  intro heq
  by_cases hvalid : (run.apply code).isValidChar
  · have hchar : Char.ofNatAux (run.apply code) hvalid = '\n' := (dif_pos hvalid).symm.trans heq
    exact hcode (congrArg Char.toNat hchar)
  · exact absurd ((dif_neg hvalid).symm.trans heq) (by decide)

theorem KeepLines.caseForm_ne (h : KeepLines runs sequences) (hc : c ≠ '\n') :
    caseForm runs sequences c ≠ ['\n'] := by
  unfold caseForm
  split
  · next entry hentry =>
    intro heq
    have hlength := h.sequences entry (List.mem_of_find?_eq_some hentry)
    rw [← List.length_map Char.ofNat, heq] at hlength
    exact absurd hlength (Nat.lt_irrefl 1)
  · split
    · next run hrun =>
      intro heq
      have hcovers : run.covers c.toNat = true := by simpa using List.find?_some hrun
      exact CaseRun.ofNat_apply_ne (h.runs run (List.mem_of_find?_eq_some hrun)) hcovers
        (List.cons.inj heq).1
    · exact fun heq => hc (List.cons.inj heq).1

theorem lowerForm_ne (hc : c ≠ '\n') : lowerForm c ≠ ['\n'] := by
  unfold lowerForm
  split
  · next hascii =>
    intro heq
    exact of_ascii (P := fun c => c ≠ '\n' → c.toLower ≠ '\n') (by decide) hascii hc
      (List.cons.inj heq).1
  · exact lower_keepLines.caseForm_ne hc

theorem upperForm_ne (hc : c ≠ '\n') : upperForm c ≠ ['\n'] := by
  unfold upperForm
  split
  · next hascii =>
    intro heq
    exact of_ascii (P := fun c => c ≠ '\n' → c.toUpper ≠ '\n') (by decide) hascii hc
      (List.cons.inj heq).1
  · exact upper_keepLines.caseForm_ne hc

end Text

namespace CaseFolding

variable {f : CaseFolding} {c : Char}

theorem single_ne {form : List Char} (hc : c ≠ '\n') (h : form ≠ ['\n']) :
    single c form ≠ '\n' := by
  unfold single
  split
  · next d =>
    rintro rfl
    exact h rfl
  · exact hc

/-- The line feed is the only character that is folded to a line feed. -/
theorem fold_eq_lineFeed_iff : f.fold c = '\n' ↔ c = '\n' := by
  constructor
  · intro h
    by_contra hc
    cases f with
    | none => exact hc h
    | upper => exact single_ne hc (Text.upperForm_ne hc) h
    | lower => exact single_ne hc (Text.lowerForm_ne hc) h
  · rintro rfl
    cases f <;> rfl

end CaseFolding

/-! ## Places -/

theorem InputPosition.after_map_fold (p : InputPosition) (f : CaseFolding) (cs : List Char) :
    p.after (cs.map f.fold) = p.after cs := by
  induction cs generalizing p with
  | nil => rfl
  | cons c cs ih =>
      have hstep : p.step (f.fold c) = p.step c := by
        simp only [step, beq_iff_eq, CaseFolding.fold_eq_lineFeed_iff]
      rw [List.map_cons, after_cons, after_cons, hstep, ih]

theorem Place.after_map_fold (p : Place) (f : CaseFolding) (cs : List Char) :
    p.after (cs.map f.fold) = p.after cs := by
  simp [after, InputPosition.after_map_fold]

/-! ## Matches -/

namespace LexerCode

variable (code : LexerCode) (see view : Char → Char)

theorem longest?_map (threads : List Nat) (length : Nat) (text : List Char) :
    longest? code see threads length (text.map view) =
      longest? code (fun c => see (view c)) threads length text := by
  induction text generalizing threads length with
  | nil => cases threads <;> rfl
  | cons c rest ih =>
      cases threads with
      | nil => rfl
      | cons pc threads => simp only [List.map_cons, longest?, ih]

theorem first?_map (threads : List Nat) (length : Nat) (text : List Char) :
    first? code see threads length (text.map view) =
      first? code (fun c => see (view c)) threads length text := by
  induction text generalizing threads length with
  | nil => cases threads <;> rfl
  | cons c rest ih =>
      cases threads with
      | nil => rfl
      | cons pc threads => simp only [List.map_cons, first?, ih]

theorem shortest?_map (text : List Char) :
    shortest? code see (text.map view) = shortest? code (fun c => see (view c)) text := by
  cases text with
  | nil => rfl
  | cons c rest => simp only [List.map_cons, shortest?, first?_map]

end LexerCode

/-- A rule that looks at a changed text sees what it sees through the change. -/
theorem LexerRule.match?_map (r : LexerRule) (see view : Char → Char) (text : List Char) :
    r.match? see (text.map view) = r.match? (fun c => see (view c)) text := by
  simp only [match?, LexerCode.shortest?_map, LexerCode.longest?_map]

namespace LexerProgram

variable {p : LexerProgram}

theorem contend_map (see view : Char → Char) (text : List Char) :
    contend see (text.map view) = contend (fun c => see (view c)) text := by
  funext best r
  simp only [contend, LexerRule.match?_map]

theorem winner?_map (see view : Char → Char) (mode : UInt32) (text : List Char) :
    p.winner? see mode (text.map view) = p.winner? (fun c => see (view c)) mode text := by
  simp only [winner?, contend_map]

/-! ## Pieces -/

/-- The pieces of a text that is seen folded are those of the folded text. The induction is on the
run over the text that was given; both runs go on with the same modes and pending pieces. -/
theorem pieces_map_fold (f : CaseFolding) (modes : ModeState) (pending : Option Place)
    (here : Place) (text : List Char) :
    p.pieces .none modes pending here (text.map f.fold) = p.pieces f modes pending here text := by
  have hsame : ∀ mode text, p.winner? CaseFolding.none.fold mode (text.map f.fold) =
      p.winner? f.fold mode text := fun mode text => winner?_map _ _ mode text
  fun_induction pieces p f modes pending here text with
  | case1 => simp [pieces]
  | case2 modes pending here c tail start hnone next ih =>
      rw [← hsame, List.map_cons] at hnone
      rw [List.map_cons, pieces, hnone]
      have hnext : here.after [f.fold c] = next := here.after_map_fold f [c]
      simp only [hnext, ih]
      rfl
  | case3 modes pending here c tail start w hw effect next rest hkind ih =>
      rw [← hsame, List.map_cons] at hw
      have hnext : here.after (f.fold c :: (tail.map f.fold).take (w.length - 1)) = next := by
        rw [← List.map_take, ← List.map_cons, Place.after_map_fold]
      rw [List.map_cons, pieces, hw]
      simp only [hnext, ← List.map_drop]
      rw [hkind, ← ih]
  | case4 modes pending here c tail start w hw effect next rest kind hkind ih =>
      rw [← hsame, List.map_cons] at hw
      have hnext : here.after (f.fold c :: (tail.map f.fold).take (w.length - 1)) = next := by
        rw [← List.map_take, ← List.map_cons, Place.after_map_fold]
      rw [List.map_cons, pieces, hw]
      simp only [hnext, ← List.map_drop]
      rw [hkind, ← ih]

end LexerProgram

/-! ## Streams -/

namespace CharStream

/-- The stream whose text is the folded text. -/
def folded (s : CharStream) : CharStream := ⟨s.name, s.text.map s.folding.fold, .none⟩

theorem toList_folded (s : CharStream) :
    s.folded.text.toList = s.text.toList.map s.folding.fold := by
  simp [folded]

end CharStream

/-- Two tokens that differ in what they show only. -/
structure Token.Overlays (t u : Token) : Prop where
  type : u.type = t.type
  channel : u.channel = t.channel
  start : u.start = t.start
  stop : u.stop = t.stop
  position : u.position = t.position
  index : u.index = t.index

theorem Token.Overlays.refl (t : Token) : t.Overlays t :=
  ⟨rfl, rfl, rfl, rfl, rfl, rfl⟩

/-- Faults of one kind at one place. -/
structure InputFault.Overlays (f g : InputFault) : Prop where
  position : g.position = f.position
  kind : g.kind = f.kind

namespace Piece

variable (s t : CharStream)

/-- The tokens of pieces in two streams overlay each other. -/
theorem tokens_overlay (index : Nat) (qs : List Piece) :
    List.Forall₂ Token.Overlays (tokens s index qs) (tokens t index qs) := by
  induction qs generalizing index with
  | nil => exact .nil
  | cons q qs ih =>
      unfold tokens
      split
      · exact .cons ⟨rfl, rfl, rfl, rfl, rfl, rfl⟩ (ih (index + 1))
      · exact ih index

theorem faults_overlay (qs : List Piece) :
    List.Forall₂ InputFault.Overlays (qs.filterMap (fault? s)) (qs.filterMap (fault? t)) := by
  induction qs with
  | nil => exact .nil
  | cons q qs ih =>
      cases hkind : q.kind with
      | unrecognized =>
          simp only [List.filterMap_cons, fault?, hkind]
          exact .cons ⟨rfl, rfl⟩ ih
      | _ => simpa only [List.filterMap_cons, fault?, hkind] using ih

end Piece

namespace LexerProgram

variable (p : LexerProgram) (s : CharStream)

theorem piecesOf_folded : p.piecesOf s.folded = p.piecesOf s := by
  rw [piecesOf, s.toList_folded]
  exact pieces_map_fold s.folding {} none {} s.text.toList

theorem lastOf_folded : p.lastOf s.folded = p.lastOf s := by
  have hcount : (p.frontOf s.folded).length = (p.frontOf s).length := by
    rw [frontOf, piecesOf_folded]
    exact (Piece.tokens_overlay s.folded s 0 _).length_eq
  rw [lastOf, lastOf, hcount, s.toList_folded, Place.after_map_fold]

/-- A lexer that sees a text through a folding finds the tokens of the folded text, of the same
types, on the same channels and at the same places, and faults of the same kinds at the places of
the faults there. Each of its tokens, but the one for the end, shows what the given text has in its
span. -/
theorem tokenize_folded :
    List.Forall₂ Token.Overlays (p.tokenize s).tokens (p.tokenize s.folded).tokens ∧
      List.Forall₂ InputFault.Overlays (p.tokenize s).faults (p.tokenize s.folded).faults ∧
      ∃ front last, (p.tokenize s).tokens = front ++ [last] ∧ last.isEof = true ∧
        ∀ t ∈ front, t.text = s.slice t.start t.stop := by
  refine ⟨?_, ?_, p.frontOf s, p.lastOf s, rfl, rfl, positioned_tokenize.text⟩
  · rw [tokens_tokenize, tokens_tokenize, lastOf_folded, frontOf, frontOf, piecesOf_folded]
    exact List.rel_append (Piece.tokens_overlay s s.folded 0 _) (.cons (.refl _) .nil)
  · rw [faults_tokenize, faults_tokenize, piecesOf_folded]
    exact Piece.faults_overlay s s.folded _

end LexerProgram

end GrammarEngine
