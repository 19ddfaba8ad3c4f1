import GrammarEngine.Proofs.Lexer.Streams
import Mathlib.Logic.Relation

/-!
# Maximal munch

A text is read in steps. At an offset the rules of the mode compete: a match that is not empty wins
if the matches of the rules in front are shorter and those of the rules behind are not longer. The
actions of its alternative are performed one after the other on the registers of the step, which
then say whether the match is to be continued, dropped or emitted. Where no rule matches, what is
pending is reported together with one character.

A step leaves the outcome as it is, which is what has come out so far together with what is still to
come. There is a step wherever the text has not ended, and it reads something. So the steps lead to
one stream of tokens, the one that the lexer makes.
-/
namespace GrammarEngine

open LexerCode

namespace CharStream

/-- The characters of the text from an offset on. -/
def rest (s : CharStream) (i : Nat) : List Char := s.text.toList.drop i

/-- The line and column of an offset. -/
def positionAt (s : CharStream) (i : Nat) : InputPosition :=
  InputPosition.after {} (s.text.toList.take i)

/-- An offset with its line and column. -/
def placeAt (s : CharStream) (i : Nat) : Place := ⟨i, s.positionAt i⟩

variable (s : CharStream) {i n : Nat}

theorem length_rest : (s.rest i).length = s.size - i := by simp [rest, size]

theorem length_rest_pos (h : i < s.size) : 0 < (s.rest i).length := by
  rw [length_rest]
  exact Nat.sub_pos_of_lt h

theorem rest_size : s.rest s.size = [] := by simp [rest, size]

theorem drop_rest : (s.rest i).drop n = s.rest (i + n) := List.drop_drop

theorem add_le_size (h : i < s.size) (hn : n ≤ (s.rest i).length) : i + n ≤ s.size := by
  rw [length_rest] at hn
  omega

/-- The place after some of what is left, where there is that much. -/
theorem after_placeAt (h : n ≤ (s.rest i).length) :
    (s.placeAt i).after ((s.rest i).take n) = s.placeAt (i + n) := by
  have hlength : ((s.rest i).take n).length = n := List.length_take_of_le h
  have hposition : s.positionAt (i + n) = (s.positionAt i).after ((s.rest i).take n) := by
    rw [positionAt, List.take_add, InputPosition.after_append]
    rfl
  rw [Place.after, hlength, placeAt, placeAt, hposition]

end CharStream

namespace LexerProgram

/-! ## The rule that wins -/

/-- No rule of the mode matches a character. -/
def Unmatched (rules : List LexerRule) (see : Char → Char) (mode : UInt32) (text : List Char) :
    Prop :=
  ∀ q ∈ rules, q.mode = mode → ∀ n, q.match? see text = some n → n.length = 0

/-- The match of a rule is the longest one of the rules of the mode, the earliest of such. -/
structure LongestFirst (rules : List LexerRule) (see : Char → Char) (mode : UInt32)
    (text : List Char) (r : LexerRule) (m : Match) : Prop where
  competes : r.mode = mode
  found : r.match? see text = some m
  pos : 0 < m.length
  first : ∃ front back, rules = front ++ r :: back ∧
    (∀ q ∈ front, q.mode = mode → ∀ n, q.match? see text = some n → n.length < m.length) ∧
    ∀ q ∈ back, q.mode = mode → ∀ n, q.match? see text = some n → n.length ≤ m.length

section Winners

variable {rules : List LexerRule} {see : Char → Char} {mode : UInt32} {text : List Char}
  {r q : LexerRule} {m n : Match}

theorem LongestFirst.mem (h : LongestFirst rules see mode text r m) : r ∈ rules := by
  obtain ⟨front, back, rfl, -, -⟩ := h.first
  simp

theorem LongestFirst.le (h : LongestFirst rules see mode text r m) (hq : q ∈ rules)
    (hmode : q.mode = mode) (hn : q.match? see text = some n) : n.length ≤ m.length := by
  obtain ⟨front, back, rfl, hfront, hback⟩ := h.first
  rcases List.mem_append.mp hq with hq | hq
  · exact Nat.le_of_lt (hfront q hq hmode n hn)
  · rcases List.mem_cons.mp hq with rfl | hq
    · obtain rfl := Option.some.inj (hn.symm.trans h.found)
      exact Nat.le_refl _
    · exact hback q hq hmode n hn

/-- None of the rules in front has a match as long. -/
theorem LongestFirst.not_mem {front : List LexerRule}
    (h : LongestFirst rules see mode text r m) (hq : LongestFirst rules see mode text q n)
    (hfront : ∀ r ∈ front, r.mode = mode → ∀ m, r.match? see text = some m →
      m.length < n.length) : r ∉ front := fun hr =>
  Nat.lt_irrefl _ (Nat.lt_of_lt_of_le (hfront r hr h.competes m h.found)
    (h.le hq.mem hq.competes hq.found))

theorem LongestFirst.unique (h : LongestFirst rules see mode text r m)
    (hq : LongestFirst rules see mode text q n) : r = q ∧ m = n := by
  suffices hsame : r = q by
    subst hsame
    exact ⟨rfl, Option.some.inj (h.found.symm.trans hq.found)⟩
  obtain ⟨front, back, hsplit, hfront, -⟩ := h.first
  obtain ⟨front', back', hsplit', hfront', -⟩ := hq.first
  rcases List.append_eq_append_iff.mp (hsplit.symm.trans hsplit') with
    ⟨between, hlonger, hrest⟩ | ⟨between, hlonger, hrest⟩
  · cases between with
    | nil => exact (List.cons.inj hrest).1
    | cons a between =>
        obtain rfl := (List.cons.inj hrest).1
        exact absurd (by simp [hlonger]) (h.not_mem hq hfront')
  · cases between with
    | nil => exact (List.cons.inj hrest).1.symm
    | cons a between =>
        obtain rfl := (List.cons.inj hrest).1
        exact absurd (by simp [hlonger]) (hq.not_mem h hfront)

theorem Unmatched.concat (h : Unmatched rules see mode text)
    (hq : q.mode = mode → ∀ n, q.match? see text = some n → n.length = 0) :
    Unmatched (rules ++ [q]) see mode text :=
  List.forall_mem_append.mpr ⟨h, List.forall_mem_singleton.mpr hq⟩

/-- A rule behind the others does not matter if its match is not longer. -/
theorem LongestFirst.concat (h : LongestFirst rules see mode text r m)
    (hq : q.mode = mode → ∀ n, q.match? see text = some n → n.length ≤ m.length) :
    LongestFirst (rules ++ [q]) see mode text r m := by
  obtain ⟨front, back, rfl, hfront, hback⟩ := h.first
  refine ⟨h.competes, h.found, h.pos, front, back ++ [q], by simp, hfront, ?_⟩
  exact List.forall_mem_append.mpr ⟨hback, List.forall_mem_singleton.mpr hq⟩

/-- A rule behind the others takes over with a longer match. -/
theorem longestFirst_last (hmode : q.mode = mode) (hn : q.match? see text = some n)
    (h : ∀ r ∈ rules, r.mode = mode → ∀ m, r.match? see text = some m → m.length < n.length)
    (hpos : 0 < n.length) : LongestFirst (rules ++ [q]) see mode text q n :=
  ⟨hmode, hn, hpos, rules, [], rfl, h, nofun⟩

/-- The rules compete one after the other, and none of them wins or the first with the longest
match. -/
theorem contend_cases (rules : List LexerRule) (see : Char → Char) (mode : UInt32)
    (text : List Char) :
    (rules.filter fun r => r.mode == mode).foldl (contend see text) none = none ∧
        Unmatched rules see mode text ∨
      ∃ r m, (rules.filter fun r => r.mode == mode).foldl (contend see text) none =
          some ⟨r, m.length, m.alternative⟩ ∧ LongestFirst rules see mode text r m := by
  -- Rules compete from the front on, so the induction adds one behind the others.
  induction rules using List.reverseRecOn with
  | nil => exact .inl ⟨rfl, nofun⟩
  | append_singleton rules q ih =>
      rw [List.filter_append, List.foldl_append]
      by_cases hmode : q.mode = mode
      · rw [List.filter_cons_of_pos (by simpa using hmode), List.filter_nil, List.foldl_cons,
          List.foldl_nil]
        cases hn : q.match? see text with
        | none =>
            rcases ih with ⟨hbest, hnone⟩ | ⟨r, m, hbest, hlongest⟩
            · exact .inl ⟨by simp [contend, hn, hbest], hnone.concat (by simp [hn])⟩
            · exact .inr ⟨r, m, by simp [contend, hn, hbest], hlongest.concat (by simp [hn])⟩
        | some n =>
            rcases ih with ⟨hbest, hnone⟩ | ⟨r, m, hbest, hlongest⟩
            · by_cases hpos : 0 < n.length
              · refine .inr ⟨q, n, by simp [contend, hn, hbest, hpos],
                  longestFirst_last hmode hn (fun r hr hrmode m hm => ?_) hpos⟩
                rwa [hnone r hr hrmode m hm]
              · refine .inl ⟨by simp [contend, hn, hbest, hpos], hnone.concat fun _ k hk => ?_⟩
                obtain rfl := Option.some.inj (hn.symm.trans hk)
                exact Nat.eq_zero_of_not_pos hpos
            · by_cases hlonger : m.length < n.length
              · refine .inr ⟨q, n, by simp [contend, hn, hbest, hlonger],
                  longestFirst_last hmode hn (fun r hr hrmode k hk => ?_)
                    (Nat.lt_of_le_of_lt (Nat.zero_le _) hlonger)⟩
                exact Nat.lt_of_le_of_lt (hlongest.le hr hrmode hk) hlonger
              · refine .inr ⟨r, m, by simp [contend, hn, hbest, hlonger],
                  hlongest.concat fun _ k hk => ?_⟩
                obtain rfl := Option.some.inj (hn.symm.trans hk)
                exact Nat.le_of_not_lt hlonger
      · have hskip : ([q].filter fun r => r.mode == mode) = [] := by simpa using hmode
        rw [hskip, List.foldl_nil]
        rcases ih with ⟨hbest, hnone⟩ | ⟨r, m, hbest, hlongest⟩
        · exact .inl ⟨hbest, hnone.concat fun h => absurd h hmode⟩
        · exact .inr ⟨r, m, hbest, hlongest.concat fun h => absurd h hmode⟩

variable {p : LexerProgram}

theorem winner?_of_unmatched (h : Unmatched p.rules see mode text) :
    p.winner? see mode text = none := by
  rcases contend_cases p.rules see mode text with ⟨hnone, -⟩ | ⟨r, m, -, hlongest⟩
  · exact hnone
  · exact absurd (h r hlongest.mem hlongest.competes m hlongest.found)
      (Nat.ne_of_gt hlongest.pos)

theorem winner?_of_longestFirst (h : LongestFirst p.rules see mode text r m) :
    p.winner? see mode text = some ⟨r, m.length, m.alternative⟩ := by
  rcases contend_cases p.rules see mode text with ⟨-, hnone⟩ | ⟨q, n, hsome, hlongest⟩
  · exact absurd (hnone r h.mem h.competes m h.found) (Nat.ne_of_gt h.pos)
  · obtain ⟨rfl, rfl⟩ := hlongest.unique h
    exact hsome

end Winners

/-! ## Actions -/

/-- What the actions of a match are performed on: the type and the channel of the token, whether it
is emitted and whether it is to be continued, the mode, and the modes to return to. -/
structure Registers where
  type : TokenType
  channel : UInt32
  emit : Bool
  more : Bool
  mode : UInt32
  stack : List UInt32

/-- What one action does. Where there is no mode to return to, the mode stays. -/
inductive Performs : LexerAction → Registers → Registers → Prop
  | skip (x : Registers) : Performs .skip x { x with emit := false }
  | more (x : Registers) : Performs .more x { x with more := true }
  | channel (c : UInt32) (x : Registers) : Performs (.channel c) x { x with channel := c }
  | type (t : TokenType) (x : Registers) : Performs (.type t) x { x with type := t }
  | mode (m : UInt32) (x : Registers) : Performs (.mode m) x { x with mode := m }
  | pushMode (m : UInt32) (x : Registers) :
      Performs (.pushMode m) x { x with mode := m, stack := x.mode :: x.stack }
  | popMode {x : Registers} {m : UInt32} {rest : List UInt32} :
      x.stack = m :: rest → Performs .popMode x { x with mode := m, stack := rest }
  | popNothing {x : Registers} : x.stack = [] → Performs .popMode x x

/-- Actions are performed in order. -/
inductive PerformsAll : List LexerAction → Registers → Registers → Prop
  | nil (x : Registers) : PerformsAll [] x x
  | cons {a : LexerAction} {rest : List LexerAction} {x y z : Registers} :
      Performs a x y → PerformsAll rest y z → PerformsAll (a :: rest) x z

namespace Registers

/-- What the registers say of a match. -/
def effect (x : Registers) : MatchEffect := ⟨x.type, x.channel, !x.emit, x.more, ⟨x.mode, x.stack⟩⟩

end Registers

theorem Performs.effect_eq {a : LexerAction} {x y : Registers} (h : Performs a x y) :
    y.effect = x.effect.apply a := by
  cases h with
  | popMode hstack => simp [Registers.effect, MatchEffect.apply, ModeState.pop, hstack]
  | popNothing hstack => simp [Registers.effect, MatchEffect.apply, ModeState.pop, hstack]
  | _ => rfl

theorem PerformsAll.effect_eq {as : List LexerAction} {x y : Registers} (h : PerformsAll as x y) :
    y.effect = as.foldl MatchEffect.apply x.effect := by
  induction h with
  | nil => rfl
  | cons ha _ ih => rw [ih, ha.effect_eq, List.foldl_cons]

theorem exists_performs (a : LexerAction) (x : Registers) : ∃ y, Performs a x y := by
  cases a with
  | popMode =>
      cases hstack : x.stack with
      | nil => exact ⟨x, .popNothing hstack⟩
      | cons m rest => exact ⟨_, .popMode hstack⟩
  | skip => exact ⟨_, .skip x⟩
  | more => exact ⟨_, .more x⟩
  | channel c => exact ⟨_, .channel c x⟩
  | type t => exact ⟨_, .type t x⟩
  | mode m => exact ⟨_, .mode m x⟩
  | pushMode m => exact ⟨_, .pushMode m x⟩

theorem exists_performsAll (as : List LexerAction) (x : Registers) : ∃ y, PerformsAll as x y := by
  induction as generalizing x with
  | nil => exact ⟨x, .nil x⟩
  | cons a as ih =>
      obtain ⟨y, hy⟩ := exists_performs a x
      obtain ⟨z, hz⟩ := ih y
      exact ⟨z, .cons hy hz⟩

/-! ## Steps -/

/-- How far a text is read: the offset, the mode with those to return to, where a piece began that
is to be continued, and what has come out so far. -/
structure Scan where
  offset : Nat := 0
  mode : UInt32 := 0
  stack : List UInt32 := []
  pending : Option Nat := none
  tokens : List Token := []
  faults : List InputFault := []

namespace Scan

/-- Where the piece begins that is read next. -/
def start (x : Scan) : Nat := x.pending.getD x.offset

/-- The registers before the actions of a match. -/
def registers (x : Scan) (r : LexerRule) : Registers :=
  ⟨r.tokenType, defaultChannel, true, false, x.mode, x.stack⟩

end Scan

variable (p : LexerProgram) (s : CharStream)

/-- At the offset of a state the longest match ends at some offset, and the actions of its
alternative lead to these registers. -/
structure Matches (x : Scan) (stop : Nat) (y : Registers) : Prop where
  inside : x.offset < s.size
  wins : ∃ r m actions, LongestFirst p.rules s.folding.fold x.mode (s.rest x.offset) r m ∧
    x.offset + m.length = stop ∧ r.actions[m.alternative]? = some actions ∧
    PerformsAll actions (x.registers r) y

/-- One step of the reading of a text. -/
inductive Step : Scan → Scan → Prop
  | report {x : Scan} : x.offset < s.size →
      Unmatched p.rules s.folding.fold x.mode (s.rest x.offset) →
      Step x { x with
        offset := x.offset + 1, pending := none,
        faults := x.faults ++ [⟨s.positionAt x.start,
          .unrecognized (s.slice x.start (x.offset + 1))⟩] }
  | more {x : Scan} {stop : Nat} {y : Registers} : Matches p s x stop y → y.more = true →
      Step x { x with
        offset := stop, mode := y.mode, stack := y.stack, pending := some x.start }
  | skip {x : Scan} {stop : Nat} {y : Registers} : Matches p s x stop y → y.more = false →
      y.emit = false →
      Step x { x with offset := stop, mode := y.mode, stack := y.stack, pending := none }
  | emit {x : Scan} {stop : Nat} {y : Registers} : Matches p s x stop y → y.more = false →
      y.emit = true →
      Step x { x with
        offset := stop, mode := y.mode, stack := y.stack, pending := none,
        tokens := x.tokens ++ [⟨y.type, y.channel, s.slice x.start stop, x.start, stop,
          s.positionAt x.start, x.tokens.length⟩] }

/-- The tokens of a state at the end of the text, with the one for the end behind them. -/
def Scan.stream (x : Scan) : TokenStream :=
  ⟨x.tokens ++ [⟨TokenType.eof, defaultChannel, Token.eofText, s.size, s.size, s.positionAt s.size,
    x.tokens.length⟩], x.faults⟩

/-- Steps lead from the beginning of a text to its end, with this outcome. -/
def Scans (t : TokenStream) : Prop :=
  ∃ x, Relation.ReflTransGen (Step p s) {} x ∧ x.offset = s.size ∧ t = x.stream s

/-! ## What is still to come -/

/-- The pieces that the lexer makes of what is left. -/
def ahead (x : Scan) : List Piece :=
  p.pieces s.folding ⟨x.mode, x.stack⟩ (x.pending.map s.placeAt) (s.placeAt x.offset)
    (s.rest x.offset)

/-- What has come out so far, together with what is still to come. -/
def outcome (x : Scan) : TokenStream :=
  Scan.stream s { x with
    tokens := x.tokens ++ Piece.tokens s x.tokens.length (ahead p s x),
    faults := x.faults ++ (ahead p s x).filterMap (Piece.fault? s) }

section Pieces

variable {p s} {folding : CaseFolding} {modes : ModeState} {pending : Option Place} {here : Place}
  {text : List Char}

theorem pieces_of_unmatched (hne : text ≠ [])
    (h : p.winner? folding.fold modes.current text = none) :
    p.pieces folding modes pending here text =
      ⟨pending.getD here, here.after (text.take 1), .unrecognized⟩ ::
        p.pieces folding modes none (here.after (text.take 1)) (text.drop 1) := by
  cases text with
  | nil => exact absurd rfl hne
  | cons c tail =>
      rw [pieces, h]
      rfl

/-- A match that wins is either the beginning of the next piece or a piece of its own. -/
theorem pieces_of_winner {w : Winner} (hpos : 0 < w.length) (hle : w.length ≤ text.length)
    (h : p.winner? folding.fold modes.current text = some w) :
    p.pieces folding modes pending here text =
      match (w.effect modes).kind? with
      | none => p.pieces folding (w.effect modes).modes (some (pending.getD here))
          (here.after (text.take w.length)) (text.drop w.length)
      | some kind => ⟨pending.getD here, here.after (text.take w.length), kind⟩ ::
          p.pieces folding (w.effect modes).modes none (here.after (text.take w.length))
            (text.drop w.length) := by
  obtain ⟨n, hn⟩ : ∃ n, w.length = n + 1 := ⟨w.length - 1, by omega⟩
  cases text with
  | nil => exact absurd hle (Nat.not_le_of_lt hpos)
  | cons c tail =>
      have htake : (c :: tail).take w.length = c :: tail.take (w.length - 1) := by
        rw [hn, List.take_succ_cons, Nat.add_sub_cancel]
      have hdrop : (c :: tail).drop w.length = tail.drop (w.length - 1) := by
        rw [hn, List.drop_succ_cons, Nat.add_sub_cancel]
      rw [htake, hdrop]
      cases hkind : (w.effect modes).kind? with
      | none =>
          rw [pieces, h]
          simp only [hkind]
      | some kind =>
          rw [pieces, h]
          simp only [hkind]

end Pieces

section Steps

variable {p s} {x y : Scan}

theorem ahead_of_unmatched (hlt : x.offset < s.size)
    (h : Unmatched p.rules s.folding.fold x.mode (s.rest x.offset)) :
    ahead p s x = ⟨s.placeAt x.start, s.placeAt (x.offset + 1), .unrecognized⟩ ::
      ahead p s { x with offset := x.offset + 1, pending := none } := by
  have hne : s.rest x.offset ≠ [] := List.ne_nil_of_length_pos (s.length_rest_pos hlt)
  rw [ahead, pieces_of_unmatched hne (winner?_of_unmatched h),
    s.after_placeAt (s.length_rest_pos hlt), s.drop_rest, Option.getD_map]
  rfl

/-- The winner behind the registers of a match. -/
theorem Matches.exists_winner {stop : Nat} {z : Registers} (h : Matches p s x stop z) :
    ∃ w : Winner, p.winner? s.folding.fold x.mode (s.rest x.offset) = some w ∧
      x.offset + w.length = stop ∧ 0 < w.length ∧ w.length ≤ (s.rest x.offset).length ∧
      w.effect ⟨x.mode, x.stack⟩ = z.effect := by
  obtain ⟨r, m, actions, hwins, hstop, hactions, hperforms⟩ := h.wins
  have hw := winner?_of_longestFirst hwins
  have hmatches := matches_of_winner? hw
  refine ⟨_, hw, hstop, hwins.pos, hmatches.length_le, ?_⟩
  rw [Winner.effect, hactions, hperforms.effect_eq]
  rfl

theorem ahead_of_matches {stop : Nat} {z : Registers} (h : Matches p s x stop z) :
    ahead p s x =
      match z.effect.kind? with
      | none => ahead p s { x with
          offset := stop, mode := z.mode, stack := z.stack, pending := some x.start }
      | some kind => ⟨s.placeAt x.start, s.placeAt stop, kind⟩ :: ahead p s { x with
          offset := stop, mode := z.mode, stack := z.stack, pending := none } := by
  obtain ⟨w, hw, rfl, hpos, hle, heffect⟩ := h.exists_winner
  rw [ahead, pieces_of_winner hpos hle hw, heffect, s.after_placeAt hle, s.drop_rest,
    Option.getD_map]
  rfl

/-- A step does not change the outcome. -/
theorem Step.outcome_eq (h : Step p s x y) : outcome p s y = outcome p s x := by
  cases h with
  | report hlt hnone =>
      rw [outcome, outcome, ahead_of_unmatched hlt hnone]
      simp [Scan.stream, ahead, Piece.tokens, Piece.fault?, Piece.text, CharStream.placeAt]
  | @more _ z hmatches hmore =>
      have hkind : z.effect.kind? = none := if_pos hmore
      rw [outcome, outcome, ahead_of_matches hmatches, hkind]
      rfl
  | @skip _ z hmatches hmore hemit =>
      have hkind : z.effect.kind? = some .skipped := by
        simp [Registers.effect, MatchEffect.kind?, hmore, hemit]
      rw [outcome, outcome, ahead_of_matches hmatches, hkind]
      simp [Scan.stream, ahead, Piece.tokens, List.filterMap_cons, Piece.fault?]
  | @emit _ z hmatches hmore hemit =>
      have hkind : z.effect.kind? = some (.token z.type z.channel) := by
        simp [Registers.effect, MatchEffect.kind?, hmore, hemit]
      rw [outcome, outcome, ahead_of_matches hmatches, hkind]
      simp [Scan.stream, ahead, Piece.tokens, List.filterMap_cons, Piece.fault?, Piece.token,
        Piece.text, CharStream.placeAt]

theorem outcome_of_steps (h : Relation.ReflTransGen (Step p s) x y) :
    outcome p s y = outcome p s x := by
  induction h with
  | refl => rfl
  | tail _ hstep ih => rw [hstep.outcome_eq, ih]

/-- At the end of the text nothing is to come. -/
theorem outcome_of_end (h : x.offset = s.size) : outcome p s x = x.stream s := by
  have hahead : ahead p s x = [] := by
    rw [ahead, h, s.rest_size, pieces]
  simp [outcome, hahead, Piece.tokens, Scan.stream]

variable (p s) in
/-- At the beginning all of it is to come. -/
theorem outcome_start : outcome p s {} = p.tokenize s := by
  have hahead : ahead p s {} = p.pieces s.folding {} none {} s.text.toList := rfl
  have hlength : s.text.toList.length = s.size := rfl
  have hall : s.text.toList.take s.size = s.text.toList := List.take_length
  simp [outcome, hahead, Scan.stream, tokenize, Token.atEnd, Place.after, hlength, hall,
    CharStream.positionAt]

/-! ## There is a step -/

/-- Where the text has not ended, there is a step that reads something. -/
theorem exists_step (hsupplied : ∀ r ∈ p.rules, Supplied r) (hlt : x.offset < s.size) :
    ∃ y, Step p s x y ∧ x.offset < y.offset ∧ y.offset ≤ s.size := by
  rcases contend_cases p.rules s.folding.fold x.mode (s.rest x.offset) with
    ⟨-, hnone⟩ | ⟨r, m, hw, hwins⟩
  · exact ⟨_, .report hlt hnone, Nat.lt_succ_self _, hlt⟩
  · have hmatches := matches_of_winner? (p := p) hw
    obtain ⟨actions, hactions⟩ := exists_actions hmatches hsupplied
    obtain ⟨z, hperforms⟩ := exists_performsAll actions (x.registers r)
    have hz : Matches p s x (x.offset + m.length) z :=
      ⟨hlt, r, m, actions, hwins, rfl, hactions, hperforms⟩
    have hinside : x.offset + m.length ≤ s.size := s.add_le_size hlt hmatches.length_le
    have hfurther : x.offset < x.offset + m.length := Nat.lt_add_of_pos_right hwins.pos
    cases hmore : z.more with
    | true => exact ⟨_, .more hz hmore, hfurther, hinside⟩
    | false =>
        cases hemit : z.emit with
        | true => exact ⟨_, .emit hz hmore hemit, hfurther, hinside⟩
        | false => exact ⟨_, .skip hz hmore hemit, hfurther, hinside⟩

/-- Steps lead to the end of the text, by induction on what is left of it. -/
theorem exists_steps (hsupplied : ∀ r ∈ p.rules, Supplied r) (hle : x.offset ≤ s.size) :
    ∃ y, Relation.ReflTransGen (Step p s) x y ∧ y.offset = s.size := by
  induction hleft : s.size - x.offset using Nat.strong_induction_on generalizing x with
  | _ left ih =>
      rcases Nat.eq_or_lt_of_le hle with hend | hlt
      · exact ⟨x, .refl, hend⟩
      · obtain ⟨y, hstep, hfurther, hinside⟩ := exists_step hsupplied hlt
        obtain ⟨z, hsteps, hend⟩ := ih (s.size - y.offset) (by omega) hinside rfl
        exact ⟨z, .head hstep hsteps, hend⟩

end Steps

/-- The token stream that a lexer makes of a text is the one that the steps lead to, if the lexer
was loaded: at every offset the longest match of the mode wins, the first rule of such, and its
actions say what becomes of it. -/
theorem tokenize_maximal_munch {header : LexerHeader} {images : List LexerRuleImage}
    (h : ofImages header images = .ok p) (t : TokenStream) :
    Scans p s t ↔ t = p.tokenize s := by
  have houtcome : ∀ x, Relation.ReflTransGen (Step p s) {} x → x.offset = s.size →
      x.stream s = p.tokenize s := fun x hsteps hend => by
    rw [← outcome_of_end hend, outcome_of_steps hsteps, outcome_start]
  constructor
  · rintro ⟨x, hsteps, hend, rfl⟩
    exact houtcome x hsteps hend
  · rintro rfl
    obtain ⟨x, hsteps, hend⟩ := exists_steps (x := {}) (supplied_of_ofImages h) (Nat.zero_le _)
    exact ⟨x, hsteps, hend, (houtcome x hsteps hend).symm⟩

/-- A keyword in front of words, blanks that may be empty, and strings between quotes. -/
def quoteHeader : LexerHeader := ⟨"QuoteLexer", "Quote", ["DEFAULT_MODE", "STRING"], [], [], []⟩

def quoteImages : List LexerRuleImage :=
  [⟨"IF", 1, 0, false, [.char 105, .char 102, .accept 0], [[]]⟩,
    ⟨"WORD", 2, 0, false, [.ranges [(97, 122)] false, .split 0 2, .accept 0], [[]]⟩,
    ⟨"BLANK", 3, 0, false, [.split 1 3, .char 32, .jump 0, .accept 0], [[.skip]]⟩,
    ⟨"OPEN", 4, 0, false, [.char 34, .accept 0], [[.more, .pushMode 1]]⟩,
    ⟨"CHAR", 5, 1, false, [.any, .accept 0], [[.skip, .more]]⟩,
    ⟨"STRING", 6, 1, false, [.char 34, .char 34, .accept 0],
      [[.type 7, .popMode, .popMode]]⟩]

/-- The keyword wins only where no word is longer, and a string begins at its first quote. -/
theorem quotes_maximal_munch :
    ∃ p, ofImages quoteHeader quoteImages = .ok p ∧
      Scans p ⟨"quotes", "if iff?\"a\"\"".toList.toArray, .none⟩
        ⟨[⟨1, 0, "if", 0, 2, ⟨1, 0⟩, 0⟩, ⟨2, 0, "iff", 3, 6, ⟨1, 3⟩, 1⟩,
          ⟨7, 0, "\"a\"\"", 7, 11, ⟨1, 7⟩, 2⟩,
          ⟨TokenType.eof, 0, "<EOF>", 11, 11, ⟨1, 11⟩, 3⟩], [⟨⟨1, 6⟩, .unrecognized "?"⟩]⟩ := by
  obtain ⟨p, hload⟩ : ∃ p, ofImages quoteHeader quoteImages = .ok p := ⟨_, rfl⟩
  refine ⟨p, hload, (tokenize_maximal_munch p _ hload _).mpr ?_⟩
  obtain rfl := Except.ok.inj hload
  decide +kernel

end LexerProgram

end GrammarEngine
