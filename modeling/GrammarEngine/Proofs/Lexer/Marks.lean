import GrammarEngine.Proofs.Lexer.Matches

/-!
# Lexers that look everything up

A lexer in which nothing is taken for granted. Threads are marked in an array with a place for each
address of the code, and are closed for as long as addresses are pending. Rules are known by their
numbers. A mark, an instruction, a rule or the actions of an alternative that are not there leave
the whole run without an answer, and so does a loop that does not end.

The code of rules that are taken over may be anything that stays inside itself. Still such a lexer
has the same answer as the one that takes what it looks up for granted, and a rule finds the match
that the paths through its code have.
-/
namespace GrammarEngine

namespace LexerCode

/-- Threads with a mark at each address where one stands, and the least alternative that one of them
accepts. -/
structure Marked where
  threads : List Nat
  marks : Array Bool
  accepted : Option Nat
deriving Repr, DecidableEq

namespace Marked

def empty (size : Nat) : Marked := ⟨[], Array.replicate size false, none⟩

def setMark (marks : Array Bool) (pc : Nat) (mark : Bool) : Option (Array Bool) :=
  if h : pc < marks.size then some (marks.set pc mark h) else none

/-- Take away all threads and their marks. -/
def clear (m : Marked) : Option Marked := do
  return ⟨[], ← m.threads.foldlM (fun marks pc => setMark marks pc false) m.marks, none⟩

/-- The least alternative when one more instruction is reached. -/
def lower (accepted : Option Nat) (i : Instruction) : Option Nat :=
  match accepted? i with
  | none => accepted
  | some alternative => some (accepted.elim alternative (min alternative))

/-- Add all addresses reachable from those that are pending. An address behind the code is passed
over. -/
def close (code : LexerCode) (m : Marked) : List Nat → Option Marked
  | [] => some m
  | pc :: pending =>
    -- With an argument by name, no place in the source is kept with the call.
    if code.size ≤ pc then (close (m := m)) code pending
    else do
      if ← m.marks[pc]? then (close (m := m)) code pending
      else
        let marks ← setMark m.marks pc true
        let i ← code[pc]?
        let m : Marked := ⟨pc :: m.threads, marks, lower m.accepted i⟩
        (close (m := m)) code (successors i ++ pending)
partial_fixpoint

/-- Let the thread at an address read a character. -/
def proceed (code : LexerCode) (c : Char) (next : Marked) (pc : Nat) : Option Marked := do
  let i ← code[pc]?
  if reads c i then close code next [pc + 1] else some next

/-- The threads after one more character, in the place of others that are not needed any more. -/
def step (code : LexerCode) (c : Char) (m spare : Marked) : Option Marked := do
  let next ← spare.clear
  m.threads.foldlM (proceed code c) next

/-- Go on from threads with the best match so far. The shortest match is final. -/
def run (r : LexerRule) (see : Char → Char) (m spare : Marked) (best : Option Match)
    (length : Nat) : List Char → Option (Option Match)
  | [] => some best
  | c :: rest =>
    if m.threads.isEmpty then some best
    else do
      let next ← step r.code (see c) m spare
      match next.accepted with
      | none => run r see next m best (length + 1) rest
      | some alternative =>
        let found : Match := ⟨length + 1, alternative⟩
        if r.shortest then some (some found)
        else run r see next m (some found) (length + 1) rest

/-- How a rule matches at the beginning of a text. -/
def match? (r : LexerRule) (see : Char → Char) (text : List Char) : Option (Option Match) := do
  let m ← close r.code (empty r.code.size) [0]
  run r see m (empty r.code.size) (m.accepted.map fun alternative => ⟨0, alternative⟩) 0 text

/-! ## Marks -/

/-- Marks stand for threads, and the alternative is the least that one of them accepts. -/
structure Sound (code : LexerCode) (m : Marked) : Prop where
  size : m.marks.size = code.size
  marks : ∀ pc, m.marks[pc]? = some true ↔ pc ∈ m.threads
  accepted : m.accepted = accepts? code m.threads

variable {code : LexerCode} {m spare : Marked}

theorem sound_empty (code : LexerCode) : Sound code (empty code.size) where
  size := Array.size_replicate
  marks pc := by simp [empty, Array.getElem?_replicate]
  accepted := rfl

theorem Sound.lt_size (h : Sound code m) {pc : Nat} (hpc : pc ∈ m.threads) : pc < code.size := by
  rw [← h.size]
  exact (Array.getElem?_eq_some_iff.mp ((h.marks pc).mpr hpc)).1

theorem exists_clear_marks {threads : List Nat} {marks : Array Bool}
    (h : ∀ pc ∈ threads, pc < marks.size) :
    ∃ marks', threads.foldlM (fun marks pc => setMark marks pc false) marks = some marks' ∧
      marks'.size = marks.size ∧
      ∀ pc, marks'[pc]? = some true ↔ marks[pc]? = some true ∧ pc ∉ threads := by
  induction threads generalizing marks with
  | nil => exact ⟨marks, rfl, rfl, by simp⟩
  | cons q threads ih =>
      have hq : q < marks.size := h q List.mem_cons_self
      have hrest : ∀ pc ∈ threads, pc < (marks.set q false hq).size := fun pc hpc => by
        rw [Array.size_set]
        exact h pc (List.mem_cons_of_mem q hpc)
      obtain ⟨marks', hrun, hsize, hmarks⟩ := ih hrest
      refine ⟨marks', ?_, by rw [hsize, Array.size_set], fun pc => ?_⟩
      · rw [List.foldlM_cons, setMark, dif_pos hq]
        exact hrun
      · rw [hmarks, Array.getElem?_set, List.mem_cons, not_or]
        by_cases hpc : q = pc
        · simp [hpc]
        · rw [if_neg hpc]
          exact and_congr_right fun _ => (and_iff_right (Ne.symm hpc)).symm

theorem Sound.clear (h : Sound code m) :
    ∃ m', m.clear = some m' ∧ Sound code m' ∧ m'.threads = [] := by
  have hlt : ∀ pc ∈ m.threads, pc < m.marks.size := fun pc hpc => h.size ▸ h.lt_size hpc
  obtain ⟨marks, hrun, hsize, hmarks⟩ := exists_clear_marks hlt
  refine ⟨⟨[], marks, none⟩, by rw [Marked.clear, hrun]; rfl, ⟨hsize.trans h.size, ?_, rfl⟩, rfl⟩
  intro pc
  simp [hmarks, h.marks]

/-- A new thread is marked and takes part in what is accepted. -/
theorem Sound.insert (h : Sound code m) {pc : Nat} {i : Instruction} (hi : code[pc]? = some i)
    (hpc : pc < m.marks.size) :
    Sound code ⟨pc :: m.threads, m.marks.set pc true hpc, lower m.accepted i⟩ where
  size := by rw [Array.size_set, h.size]
  marks q := by
    rw [Array.getElem?_set, List.mem_cons]
    split
    · next he => simp [he]
    · next hne => rw [h.marks q, or_iff_right (Ne.symm hne)]
  accepted := by
    rw [h.accepted, accepts?, accepts?, lower, List.filterMap_cons, hi, Option.bind_some]
    cases accepted? i with
    | none => rfl
    | some alternative => simp only [List.min?_cons]

/-! ## Closing -/

theorem close_cons (pc : Nat) (pending : List Nat) :
    close code m (pc :: pending) =
      if code.size ≤ pc then close code m pending
      else m.marks[pc]? >>= fun marked =>
        if marked then close code m pending
        else setMark m.marks pc true >>= fun marks => code[pc]? >>= fun i =>
          close code ⟨pc :: m.threads, marks, lower m.accepted i⟩ (successors i ++ pending) := by
  rw [close]

/-- Closing goes on as long as the bounded one, which never meets its bound. -/
theorem Sound.closeWithin (h : Sound code m) {bound : Nat} {pending : List Nat}
    (hbound : pending.length + 2 * unvisited code m.threads ≤ bound) :
    ∃ m', Marked.close code m pending = some m' ∧ Sound code m' ∧
      m'.threads = LexerCode.closeWithin code bound m.threads pending := by
  induction bound generalizing m pending with
  | zero =>
      obtain rfl : pending = [] := List.length_eq_zero_iff.mp (by omega)
      exact ⟨m, by rw [Marked.close], h, rfl⟩
  | succ bound ih =>
      cases pending with
      | nil => exact ⟨m, by rw [Marked.close], h, rfl⟩
      | cons pc pending =>
          rw [List.length_cons] at hbound
          rw [close_cons, LexerCode.closeWithin]
          by_cases hpc : code.size ≤ pc
          · rw [if_pos hpc, Array.getElem?_eq_none hpc]
            exact ih h (by omega)
          · have hlt : pc < m.marks.size := by
              rw [h.size]
              omega
            rw [if_neg hpc]
            obtain ⟨i, hi⟩ : ∃ i, code[pc]? = some i :=
              ⟨_, Array.getElem?_eq_getElem (Nat.lt_of_not_le hpc)⟩
            simp only [hi]
            by_cases hmem : pc ∈ m.threads
            · rw [(h.marks pc).mpr hmem, List.contains_iff_mem.mpr hmem]
              exact ih h (by omega)
            · have hmark : m.marks[pc]? = some false := by
                rw [Array.getElem?_eq_getElem hlt, Option.some.injEq, Bool.eq_false_iff]
                intro hmark
                exact hmem ((h.marks pc).mp (by rw [Array.getElem?_eq_getElem hlt, hmark]))
              have hcontains : m.threads.contains pc = false := by simpa using hmem
              have hfewer := unvisited_cons_lt (Nat.lt_of_not_le hpc) hmem
              have hnext := length_successors_le i
              rw [hmark, hcontains, setMark, dif_pos hlt]
              refine ih (h.insert hi hlt) ?_
              simp only [List.length_append]
              omega

theorem Sound.close (h : Sound code m) (pc : Nat) :
    ∃ m', Marked.close code m [pc] = some m' ∧ Sound code m' ∧
      m'.threads = LexerCode.close code m.threads pc := by
  refine h.closeWithin ?_
  have hfew : unvisited code m.threads ≤ code.size := unvisited_le m.threads
  rw [List.length_singleton]
  omega

/-! ## Matching -/

theorem Sound.proceed (h : Sound code m) {pc : Nat} (hpc : pc < code.size) (c : Char) :
    ∃ m', Marked.proceed code c m pc = some m' ∧ Sound code m' ∧ m'.threads =
      if (code[pc]?).any (reads c) then LexerCode.close code m.threads (pc + 1) else m.threads := by
  obtain ⟨i, hi⟩ : ∃ i, code[pc]? = some i := ⟨_, Array.getElem?_eq_getElem hpc⟩
  rw [Marked.proceed, hi, Option.any_some]
  simp only [Option.bind_eq_bind, Option.bind_some]
  by_cases hreads : reads c i = true
  · rw [if_pos hreads, if_pos hreads]
    exact h.close (pc + 1)
  · rw [if_neg hreads, if_neg hreads]
    exact ⟨m, rfl, h, rfl⟩

/-- The induction is on the threads that have not read the character yet. -/
theorem Sound.foldlM_proceed (h : Sound code m) (c : Char) {threads : List Nat}
    (hthreads : ∀ pc ∈ threads, pc < code.size) :
    ∃ m', threads.foldlM (Marked.proceed code c) m = some m' ∧ Sound code m' ∧
      m'.threads = threads.foldl (fun next pc =>
        if (code[pc]?).any (reads c) then LexerCode.close code next (pc + 1) else next)
        m.threads := by
  induction threads generalizing m with
  | nil => exact ⟨m, rfl, h, rfl⟩
  | cons pc threads ih =>
      obtain ⟨m', hproceed, hm', hnext⟩ := h.proceed (hthreads pc List.mem_cons_self) c
      rw [List.foldlM_cons, hproceed, List.foldl_cons, ← hnext]
      exact ih hm' fun q hq => hthreads q (List.mem_cons_of_mem pc hq)

theorem Sound.step (h : Sound code m) (hspare : Sound code spare) (c : Char) :
    ∃ m', Marked.step code c m spare = some m' ∧ Sound code m' ∧
      m'.threads = LexerCode.step code c m.threads := by
  obtain ⟨next, hclear, hnext, hnone⟩ := hspare.clear
  rw [Marked.step, hclear, LexerCode.step, ← hnone]
  exact hnext.foldlM_proceed c fun pc => h.lt_size

end Marked

/-! ## Matching -/

section Equations

variable (code : LexerCode) (see : Char → Char) (threads : List Nat) (n : Nat) (c : Char)
  (rest : List Char)

theorem longest?_nil : longest? code see threads n [] = here? code threads n := by
  cases threads <;> rfl

theorem longest?_cons : longest? code see threads n (c :: rest) =
    (longest? code see (step code (see c) threads) (n + 1) rest).or (here? code threads n) := by
  cases threads with
  | nil => cases rest <;> rfl
  | cons pc threads => rfl

theorem first?_nil : first? code see threads n [] = here? code threads n := by
  cases threads <;> rfl

theorem first?_cons : first? code see threads n (c :: rest) =
    (here? code threads n).or (first? code see (step code (see c) threads) (n + 1) rest) := by
  cases threads with
  | nil => cases rest <;> rfl
  | cons pc threads => rfl

theorem longest?_or_here? (text : List Char) :
    (longest? code see threads n text).or (here? code threads n) =
      longest? code see threads n text := by
  cases text with
  | nil => rw [longest?_nil, Option.or_self]
  | cons c rest => rw [longest?_cons, Option.or_assoc, Option.or_self]

end Equations

namespace Marked

variable {code : LexerCode} {m spare next : Marked} {r : LexerRule} {see : Char → Char}
  {best : Option Match} {n : Nat} {c : Char} {rest : List Char}

theorem Sound.map_accepted (h : Sound code m) (n : Nat) :
    (m.accepted.map fun alternative => ⟨n, alternative⟩ : Option Match) =
      here? code m.threads n := by
  rw [h.accepted, here?]

/-- One round of a run with threads left. -/
theorem Sound.exists_run_cons (h : Sound r.code m) (hspare : Sound r.code spare)
    (hthreads : m.threads ≠ []) (see : Char → Char) (best : Option Match) (n : Nat) (c : Char)
    (rest : List Char) : ∃ next, Sound r.code next ∧
      next.threads = LexerCode.step r.code (see c) m.threads ∧
      run r see m spare best n (c :: rest) =
        match here? r.code next.threads (n + 1) with
        | none => run r see next m best (n + 1) rest
        | some found =>
          if r.shortest then some (some found) else run r see next m (some found) (n + 1) rest := by
  obtain ⟨next, hstep, hnext, hnextThreads⟩ := h.step hspare (see c)
  refine ⟨next, hnext, hnextThreads, ?_⟩
  have hempty : ¬ m.threads.isEmpty = true := by simpa using hthreads
  rw [run, if_neg hempty, hstep, ← hnext.map_accepted, Option.bind_eq_bind, Option.bind_some]
  cases next.accepted <;> rfl

/-- The best match so far counts if none is found further on. The induction is on the text. -/
theorem Sound.run_longest (hlongest : r.shortest = false) {text : List Char} (h : Sound r.code m)
    (hspare : Sound r.code spare) (hbest : (here? r.code m.threads n).or best = best) :
    run r see m spare best n text = some ((longest? r.code see m.threads n text).or best) := by
  induction text generalizing m spare best n with
  | nil => rw [run, longest?_nil, hbest]
  | cons c rest ih =>
      rw [longest?_cons, Option.or_assoc, hbest]
      by_cases hthreads : m.threads = []
      · rw [run, hthreads, List.isEmpty_nil, if_pos rfl]
        cases rest <;> rfl
      · obtain ⟨next, hnext, hstep, hrun⟩ := h.exists_run_cons hspare hthreads see best n c rest
        rw [hrun, ← hstep, ← longest?_or_here?, Option.or_assoc]
        cases hhere : here? r.code next.threads (n + 1) with
        | none => exact ih hnext h (by rw [hhere, Option.none_or])
        | some found =>
            simp only [hlongest, Bool.false_eq_true, if_false]
            exact ih hnext h (by rw [hhere, Option.or_self])

/-- A first round, behind which no match has been found yet. -/
theorem Sound.run_round (hshortest : r.shortest = true) (h : Sound r.code m)
    (hspare : Sound r.code spare)
    (hrest : ∀ next, Sound r.code next → here? r.code next.threads (n + 1) = none →
      run r see next m best (n + 1) rest =
        some ((first? r.code see next.threads (n + 1) rest).or best)) :
    run r see m spare best n (c :: rest) =
      some ((first? r.code see (LexerCode.step r.code (see c) m.threads) (n + 1) rest).or
        best) := by
  by_cases hthreads : m.threads = []
  · rw [run, hthreads, List.isEmpty_nil, if_pos rfl]
    cases rest <;> rfl
  · obtain ⟨next, hnext, hstep, hrun⟩ := h.exists_run_cons hspare hthreads see best n c rest
    rw [hrun, ← hstep]
    cases hhere : here? r.code next.threads (n + 1) with
    | none => exact hrest next hnext hhere
    | some found =>
        have hfirst : first? r.code see next.threads (n + 1) rest = some found := by
          cases rest with
          | nil => rw [first?_nil, hhere]
          | cons d rest => rw [first?_cons, hhere, Option.some_or]
        simp only [hshortest, if_true, hfirst, Option.some_or]

theorem Sound.run_first (hshortest : r.shortest = true) {text : List Char} (h : Sound r.code m)
    (hspare : Sound r.code spare) (hnone : here? r.code m.threads n = none) :
    run r see m spare best n text = some ((first? r.code see m.threads n text).or best) := by
  induction text generalizing m spare n with
  | nil => rw [run, first?_nil, hnone, Option.none_or]
  | cons c rest ih =>
      rw [first?_cons, hnone, Option.none_or]
      exact h.run_round hshortest hspare fun next hnext hhere => ih hnext h hhere

theorem Sound.run_shortest (hshortest : r.shortest = true) (h : Sound r.code m)
    (hspare : Sound r.code spare) :
    run r see m spare best n (c :: rest) =
      some ((first? r.code see (LexerCode.step r.code (see c) m.threads) (n + 1) rest).or best) :=
  h.run_round hshortest hspare fun _ hnext hhere => hnext.run_first hshortest h hhere

/-- A rule that looks everything up matches as it does otherwise. -/
theorem match?_eq (r : LexerRule) (see : Char → Char) (text : List Char) :
    match? r see text = some (r.match? see text) := by
  obtain ⟨m, hclose, hm, hstart⟩ := (sound_empty r.code).close 0
  have hthreads : m.threads = start r.code := hstart
  rw [match?, hclose, LexerRule.match?, Option.bind_eq_bind, Option.bind_some, hm.map_accepted,
    hthreads]
  cases hshortest : r.shortest with
  | false =>
      rw [if_neg Bool.false_ne_true, hm.run_longest hshortest (sound_empty r.code) (by
        rw [hthreads, Option.or_self]), hthreads, longest?_or_here?]
  | true =>
      rw [if_pos rfl]
      cases text with
      | nil => rw [run, shortest?]
      | cons c rest => rw [hm.run_shortest hshortest (sound_empty r.code), hthreads, shortest?]

end Marked

/-! ## What a rule finds -/

/-- A path from the first instruction reads so many characters of a text and reports the
alternative. -/
def Reached (code : LexerCode) (see : Char → Char) (text : List Char) (e a : Nat) : Prop :=
  e ≤ text.length ∧ ∃ n, Accepts code n 0 ((text.take e).map see) a

theorem ends_start (code : LexerCode) (see : Char → Char) (text : List Char) :
    Ends code see (start code) 0 text = Reached code see text := by
  ext e a
  constructor
  · rintro ⟨u, v, rfl, rfl, hawaits⟩
    have hpath := (awaits_start (u.map see) a).mp hawaits
    rw [Nat.zero_add, Reached, List.take_left, List.length_append]
    exact ⟨Nat.le_add_right _ _, hpath⟩
  · rintro ⟨he, hpath⟩
    refine ⟨text.take e, text.drop e, (List.take_append_drop e text).symm, ?_,
      (awaits_start _ a).mpr hpath⟩
    rw [Nat.zero_add, List.length_take, Nat.min_eq_left he]

/-- Whatever the code of a rule is, and wherever it starts in the input, the run ends without
looking up anything that is not there. It finds the last end to which a path leads, or, for a rule
that looks for its shortest match, the first such end that is not empty and the empty one only where
there is no other, with the least alternative that a path to this end reports. It finds nothing
exactly if no path reports anything. -/
theorem match?_exact (r : LexerRule) (see : Char → Char) (input : List Char) (start : Nat) :
    let text := input.drop start
    let found := r.match? see text
    Marked.match? r see text = some found ∧
      if r.shortest then Shortest (Reached r.code see text) found
      else Latest (Reached r.code see text) found := by
  intro text found
  refine ⟨Marked.match?_eq r see text, ?_⟩
  rw [← ends_start]
  unfold found LexerRule.match?
  split
  · exact shortest?_shortest text
  · exact longest?_latest start_closed 0 text

/-- Code that no rule is compiled to, with a cycle that reads nothing and two ways to report at one
end. -/
example : LexerRule.match?
    ⟨"Loop", 1, 0, false,
      #[.split 1 2, .jump 0, .any, .split 0 4, .split 5 6, .accept 3, .accept 1], #[]⟩
    id ['x', 'y'] = some ⟨2, 1⟩ := by decide

end LexerCode

namespace LexerProgram

open LexerCode

/-! ## Rules and actions by number -/

/-- The match of a rule that is known by its number. -/
structure Candidate where
  rule : Nat
  length : Nat
  alternative : Nat
deriving Repr, DecidableEq

/-- A rule takes over only with a longer match. -/
def challenge (see : Char → Char) (text : List Char) (best : Option Candidate)
    (r : LexerRule × Nat) : Option (Option Candidate) := do
  match ← Marked.match? r.1 see text with
  | none => return best
  | some m =>
    return if (best.map Candidate.length).getD 0 < m.length then
      some ⟨r.2, m.length, m.alternative⟩ else best

def candidate? (p : LexerProgram) (see : Char → Char) (mode : UInt32) (text : List Char) :
    Option (Option Candidate) :=
  (p.rules.zipIdx.filter fun r => r.1.mode == mode).foldlM (challenge see text) none

/-- The pieces of a text, for as long as some of it is left. -/
def pieces? (p : LexerProgram) (folding : CaseFolding) (m : ModeState)
    (pending : Option Place) (here : Place) : List Char → Option (List Piece)
  | [] => some []
  | c :: tail => do
    let start := pending.getD here
    match ← p.candidate? folding.fold m.current (c :: tail) with
    | none =>
      let next := here.after [c]
      return ⟨start, next, .unrecognized⟩ :: (← (pieces? p (m := m)) folding none next tail)
    | some w =>
      let rule ← p.rules[w.rule]?
      let actions ← rule.actions[w.alternative]?
      let effect := actions.foldl MatchEffect.apply { type := rule.tokenType, modes := m }
      let next := here.after ((c :: tail).take w.length)
      let rest := (c :: tail).drop w.length
      match effect.kind? with
      | none => (pieces? p (m := effect.modes)) folding (some start) next rest
      | some kind =>
        return ⟨start, next, kind⟩ :: (← (pieces? p (m := effect.modes)) folding none next rest)
partial_fixpoint

/-- The tokens of a text with the end of the input behind them, and what was not recognized. -/
def tokenize? (p : LexerProgram) (s : CharStream) : Option TokenStream := do
  let pieces ← p.pieces? s.folding {} none {} s.text.toList
  let tokens := Piece.tokens s 0 pieces
  let finish := Place.after {} s.text.toList
  return ⟨tokens ++ [Token.atEnd finish tokens.length], pieces.filterMap (Piece.fault? s)⟩

variable {p : LexerProgram} {see : Char → Char} {text : List Char}

/-- A candidate stands for a winner. -/
structure Candidate.Names (p : LexerProgram) (c : Candidate) (w : Winner) : Prop where
  rule : p.rules[c.rule]? = some w.rule
  length : c.length = w.length
  alternative : c.alternative = w.alternative

theorem exists_challenge {r : LexerRule × Nat} (hr : p.rules[r.2]? = some r.1)
    {best : Option Candidate} {winner : Option Winner}
    (h : Option.Rel (Candidate.Names p) best winner) :
    ∃ best', challenge see text best r = some best' ∧
      Option.Rel (Candidate.Names p) best' (contend see text winner r.1) := by
  rw [challenge, Marked.match?_eq, contend, Option.bind_eq_bind, Option.bind_some]
  cases hmatch : r.1.match? see text with
  | none => exact ⟨best, rfl, h⟩
  | some m =>
      have hlength : (best.map Candidate.length).getD 0 = (winner.map Winner.length).getD 0 := by
        cases h with
        | none => rfl
        | some hnames => exact hnames.length
      refine ⟨_, rfl, ?_⟩
      simp only [hlength]
      split
      · exact .some ⟨hr, rfl, rfl⟩
      · exact h

/-- The induction is on the rules that compete. -/
theorem exists_foldlM_challenge {rs : List (LexerRule × Nat)}
    (hrs : ∀ r ∈ rs, p.rules[r.2]? = some r.1) {best : Option Candidate} {winner : Option Winner}
    (h : Option.Rel (Candidate.Names p) best winner) :
    ∃ best', rs.foldlM (challenge see text) best = some best' ∧
      Option.Rel (Candidate.Names p) best' ((rs.map Prod.fst).foldl (contend see text) winner) := by
  induction rs generalizing best winner with
  | nil => exact ⟨best, rfl, h⟩
  | cons r rs ih =>
      obtain ⟨best', hrun, hbest⟩ := exists_challenge (hrs r List.mem_cons_self) h
      rw [List.foldlM_cons, hrun, List.map_cons, List.foldl_cons]
      exact ih (fun q hq => hrs q (List.mem_cons_of_mem r hq)) hbest

theorem exists_candidate? (p : LexerProgram) (see : Char → Char) (mode : UInt32)
    (text : List Char) : ∃ best, p.candidate? see mode text = some best ∧
      Option.Rel (Candidate.Names p) best (p.winner? see mode text) := by
  have hrules : ((p.rules.zipIdx.filter fun r => r.1.mode == mode).map Prod.fst) =
      p.rules.filter fun r => r.mode == mode := by
    rw [← List.zipIdx_map_fst 0 p.rules, List.filter_map, List.zipIdx_map_fst]
    rfl
  rw [candidate?, winner?, ← hrules]
  refine exists_foldlM_challenge (fun r hr => ?_) .none
  exact List.mem_zipIdx_iff_getElem?.mp (List.mem_filter.mp hr).1

/-! ## Runs -/

/-- The rule and the actions of a winner are there. -/
theorem pieces?_of_winner (hsupplied : ∀ r ∈ p.rules, Supplied r) {folding : CaseFolding}
    {modes : ModeState} {c : Char} {tail : List Char} {w : Winner}
    (hw : p.winner? folding.fold modes.current (c :: tail) = some w) (pending : Option Place)
    (here : Place) :
    p.pieces? folding modes pending here (c :: tail) =
      match (w.effect modes).kind? with
      | none => p.pieces? folding (w.effect modes).modes (some (pending.getD here))
          (here.after (c :: tail.take (w.length - 1))) (tail.drop (w.length - 1))
      | some kind => do
        return ⟨pending.getD here, here.after (c :: tail.take (w.length - 1)), kind⟩ ::
          (← p.pieces? folding (w.effect modes).modes none
            (here.after (c :: tail.take (w.length - 1))) (tail.drop (w.length - 1))) := by
  obtain ⟨best, hbest, hrel⟩ := p.exists_candidate? folding.fold modes.current (c :: tail)
  rw [hw] at hrel
  cases hrel with
  | @some v _ hnames =>
      have hmatches := matches_of_winner? hw
      obtain ⟨actions, hactions⟩ := exists_actions hmatches hsupplied
      obtain ⟨n, hn⟩ : ∃ n, w.length = n + 1 := Nat.exists_eq_add_one.mpr hmatches.pos
      have heffect : w.effect modes =
          actions.foldl MatchEffect.apply { type := w.rule.tokenType, modes } := by
        rw [Winner.effect, hactions, Option.getD_some]
      rw [pieces?, hbest, heffect, hn]
      simp only [Option.bind_eq_bind, Option.bind_some, hnames.rule, hnames.alternative, hactions,
        hnames.length, hn, List.take_succ_cons, List.drop_succ_cons, Nat.add_sub_cancel]

/-- What a lexer looks up is there if every alternative that its rules report has its actions. -/
theorem pieces?_eq (hsupplied : ∀ r ∈ p.rules, Supplied r) (folding : CaseFolding)
    (modes : ModeState) (pending : Option Place) (here : Place) (text : List Char) :
    p.pieces? folding modes pending here text =
      some (p.pieces folding modes pending here text) := by
  fun_induction pieces p folding modes pending here text with
  | case1 => rw [pieces?]
  | case2 modes pending here c tail start hnone next ih =>
      obtain ⟨best, hbest, hrel⟩ := p.exists_candidate? folding.fold modes.current (c :: tail)
      rw [hnone] at hrel
      cases hrel
      rw [pieces?, hbest]
      simp only [Option.bind_eq_bind, Option.bind_some]
      rw [ih]
      rfl
  | case3 modes pending here c tail start w hw effect next rest hkind ih =>
      have hnone : (w.effect modes).kind? = none := hkind
      rw [pieces?_of_winner hsupplied hw, hnone]
      exact ih
  | case4 modes pending here c tail start w hw effect next rest kind hkind ih =>
      have hsome : (w.effect modes).kind? = some kind := hkind
      rw [pieces?_of_winner hsupplied hw, hsome]
      exact congrArg (fun found => found >>= fun pieces => some (⟨start, next, kind⟩ :: pieces)) ih

/-- A lexer that was taken over from images finds all that it looks up. -/
theorem tokenize?_eq {header : LexerHeader} {images : List LexerRuleImage}
    (h : ofImages header images = .ok p) (s : CharStream) :
    p.tokenize? s = some (p.tokenize s) := by
  rw [tokenize?, pieces?_eq (supplied_of_ofImages h)]
  rfl

end LexerProgram

end GrammarEngine
