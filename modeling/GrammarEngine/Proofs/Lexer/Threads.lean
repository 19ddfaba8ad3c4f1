import GrammarEngine.Lexer.Match
import Mathlib.Data.Finset.Card
import Mathlib.Order.Bounds.Basic

/-!
# Threads follow all paths

A path through the code of a rule reads a word and ends at an `accept`. What a set of threads still
has to read is all that matters about it: closing it under steps that read nothing adds what can be
read from the new address, and reading a character leaves the words that went on from it. Nothing
here asks where the code came from, so cycles that read nothing are covered.

A fragment is code between an address and the one where it is left. It stands for a language: what
is accepted from its address is a word of the language, followed by what is accepted from its end. A
path through a fragment takes no fewer steps than what remains of it. This lets the paths of a loop
be followed by the number of their steps, also where the body of the loop reads nothing.
-/
namespace GrammarEngine.LexerCode

/-- A path of a number of steps from an address, the word that it reads, and the alternative that it
reports at its end. -/
inductive Accepts (code : LexerCode) : Nat → Nat → List Char → Nat → Prop
  | stop {pc : Nat} {alternative : UInt32} :
      code[pc]? = some (.accept alternative) → Accepts code 0 pc [] alternative.toNat
  | hop {n pc target a : Nat} {i : Instruction} {w : List Char} :
      code[pc]? = some i → target ∈ successors i → Accepts code n target w a →
      Accepts code (n + 1) pc w a
  | read {n pc a : Nat} {i : Instruction} {c : Char} {w : List Char} :
      code[pc]? = some i → reads c i = true → Accepts code n (pc + 1) w a →
      Accepts code (n + 1) pc (c :: w) a

variable {code : LexerCode}

theorem Accepts.lt_size {n pc a : Nat} {w : List Char} (h : Accepts code n pc w a) :
    pc < code.size := by
  cases h with
  | stop hi => exact (Array.getElem?_eq_some_iff.mp hi).choose
  | hop hi _ _ => exact (Array.getElem?_eq_some_iff.mp hi).choose
  | read hi _ _ => exact (Array.getElem?_eq_some_iff.mp hi).choose

/-! ## Closing threads -/

theorem length_successors_le (i : Instruction) : (successors i).length ≤ 2 := by
  cases i <;> simp [successors]

/-- Steps that read nothing lead to threads or to addresses that are pending. -/
def Expanded (code : LexerCode) (threads pending : List Nat) : Prop :=
  ∀ pc ∈ threads, ∀ i, code[pc]? = some i → ∀ target ∈ successors i, target < code.size →
    target ∈ threads ∨ target ∈ pending

/-- Steps that read nothing lead to threads. -/
def Closed (code : LexerCode) (threads : List Nat) : Prop :=
  ∀ pc ∈ threads, ∀ i, code[pc]? = some i → ∀ target ∈ successors i, target < code.size →
    target ∈ threads

theorem closed_nil : Closed code [] := by
  intro pc hpc
  exact absurd hpc List.not_mem_nil

/-- The number of addresses that are no threads yet. -/
def unvisited (code : LexerCode) (threads : List Nat) : Nat :=
  (Finset.range code.size \ threads.toFinset).card

theorem unvisited_le (threads : List Nat) : unvisited code threads ≤ code.size := by
  have h := Finset.card_le_card
    (Finset.sdiff_subset (s := Finset.range code.size) (t := threads.toFinset))
  rwa [Finset.card_range] at h

theorem unvisited_cons_lt {threads : List Nat} {pc : Nat} (hpc : pc < code.size)
    (hnew : pc ∉ threads) : unvisited code (pc :: threads) < unvisited code threads := by
  rw [unvisited, unvisited, List.toFinset_cons, Finset.sdiff_insert]
  apply Finset.card_erase_lt_of_mem
  rw [Finset.mem_sdiff, Finset.mem_range, List.mem_toFinset]
  exact ⟨hpc, hnew⟩

/-- How threads have grown by what was pending. -/
structure Grown (code : LexerCode) (threads pending result : List Nat) : Prop where
  closed : Closed code result
  subset : threads ⊆ result
  reached : ∀ pc ∈ pending, pc < code.size → pc ∈ result
  origin : ∀ pc ∈ result, pc ∈ threads ∨ ∃ first ∈ pending, ∀ n w a,
    Accepts code n pc w a → ∃ m, Accepts code m first w a

theorem Expanded.closed {threads : List Nat} (h : Expanded code threads []) :
    Closed code threads := by
  intro pc hpc i hi target htarget hlt
  obtain hmem | hmem := h pc hpc i hi target htarget hlt
  · exact hmem
  · exact absurd hmem List.not_mem_nil

theorem Expanded.grown {threads : List Nat} (h : Expanded code threads []) :
    Grown code threads [] threads where
  closed := h.closed
  subset := List.Subset.refl threads
  reached _ hpc := absurd hpc List.not_mem_nil
  origin _ hpc := .inl hpc

/-- A thread needs no second expansion, and an address outside the code needs none. -/
theorem Grown.cons_settled {threads pending result : List Nat} {pc : Nat}
    (h : Grown code threads pending result) (hpc : pc < code.size → pc ∈ threads) :
    Grown code threads (pc :: pending) result where
  closed := h.closed
  subset := h.subset
  reached := by
    intro q hq hlt
    obtain rfl | hq := List.mem_cons.mp hq
    · exact h.subset (hpc hlt)
    · exact h.reached q hq hlt
  origin := by
    intro q hq
    obtain hq | ⟨first, hfirst, hpaths⟩ := h.origin q hq
    · exact .inl hq
    · exact .inr ⟨first, List.mem_cons_of_mem pc hfirst, hpaths⟩

/-- A new thread leaves its successors pending. -/
theorem Grown.cons_new {threads pending result : List Nat} {pc : Nat} {i : Instruction}
    (h : Grown code (pc :: threads) (successors i ++ pending) result) (hi : code[pc]? = some i) :
    Grown code threads (pc :: pending) result where
  closed := h.closed
  subset q hq := h.subset (List.mem_cons_of_mem pc hq)
  reached := by
    intro q hq hlt
    obtain rfl | hq := List.mem_cons.mp hq
    · exact h.subset List.mem_cons_self
    · exact h.reached q (List.mem_append_right _ hq) hlt
  origin := by
    intro q hq
    obtain hq | ⟨first, hfirst, hpaths⟩ := h.origin q hq
    · obtain rfl | hq := List.mem_cons.mp hq
      · exact .inr ⟨q, List.mem_cons_self, fun n w a hpath => ⟨n, hpath⟩⟩
      · exact .inl hq
    · obtain hfirst | hfirst := List.mem_append.mp hfirst
      · refine .inr ⟨pc, List.mem_cons_self, fun n w a hpath => ?_⟩
        obtain ⟨m, hm⟩ := hpaths n w a hpath
        exact ⟨m + 1, .hop hi hfirst hm⟩
      · exact .inr ⟨first, List.mem_cons_of_mem pc hfirst, hpaths⟩

theorem Expanded.tail {threads pending : List Nat} {pc : Nat}
    (h : Expanded code threads (pc :: pending)) (hpc : pc < code.size → pc ∈ threads) :
    Expanded code threads pending := by
  intro q hq i hi target htarget hlt
  obtain hmem | hmem := h q hq i hi target htarget hlt
  · exact .inl hmem
  · obtain rfl | hmem := List.mem_cons.mp hmem
    · exact .inl (hpc hlt)
    · exact .inr hmem

theorem Expanded.expand {threads pending : List Nat} {pc : Nat} {i : Instruction}
    (h : Expanded code threads (pc :: pending)) (hi : code[pc]? = some i) :
    Expanded code (pc :: threads) (successors i ++ pending) := by
  intro q hq j hj target htarget hlt
  obtain rfl | hq := List.mem_cons.mp hq
  · obtain rfl : i = j := Option.some.inj (hi.symm.trans hj)
    exact .inr (List.mem_append_left _ htarget)
  · obtain hmem | hmem := h q hq j hj target htarget hlt
    · exact .inl (List.mem_cons_of_mem pc hmem)
    · obtain rfl | hmem := List.mem_cons.mp hmem
      · exact .inl List.mem_cons_self
      · exact .inr (List.mem_append_right _ hmem)

/-- The bound counts what is pending, and two more for every address that is no thread yet. -/
theorem closeWithin_grown (bound : Nat) {threads pending : List Nat}
    (hbound : pending.length + 2 * unvisited code threads ≤ bound)
    (h : Expanded code threads pending) :
    Grown code threads pending (closeWithin code bound threads pending) := by
  induction bound generalizing threads pending with
  | zero =>
      obtain rfl : pending = [] := List.length_eq_zero_iff.mp (by omega)
      exact h.grown
  | succ bound ih =>
      cases pending with
      | nil => exact h.grown
      | cons pc pending =>
          rw [List.length_cons] at hbound
          rw [closeWithin]
          cases hi : code[pc]? with
          | none =>
              have hout : code.size ≤ pc := Array.getElem?_eq_none_iff.mp hi
              have hsettled : pc < code.size → pc ∈ threads := fun hlt => absurd hlt (by omega)
              exact (ih (by omega) (h.tail hsettled)).cons_settled hsettled
          | some i =>
              have hpc : pc < code.size := (Array.getElem?_eq_some_iff.mp hi).choose
              by_cases hmem : pc ∈ threads
              · simp only [List.contains_iff_mem.mpr hmem, if_true]
                exact (ih (by omega) (h.tail fun _ => hmem)).cons_settled fun _ => hmem
              · have hcontains : threads.contains pc = false := by
                  rw [Bool.eq_false_iff]
                  intro hc
                  exact hmem (List.contains_iff_mem.mp hc)
                have hfewer := unvisited_cons_lt hpc hmem
                have hnext := length_successors_le i
                simp only [hcontains, Bool.false_eq_true, if_false]
                refine (ih ?_ (h.expand hi)).cons_new hi
                rw [List.length_append]
                omega

theorem close_grown {threads : List Nat} (h : Closed code threads) (pc : Nat) :
    Grown code threads [pc] (close code threads pc) := by
  have hfew : unvisited code threads ≤ code.size := unvisited_le threads
  apply closeWithin_grown
  · rw [List.length_singleton]
    omega
  · intro q hq i hi target htarget hlt
    exact .inl (h q hq i hi target htarget hlt)

/-! ## What threads go on to read -/

/-- Some thread goes on to read a word and to report an alternative. -/
def Awaits (code : LexerCode) (threads : List Nat) (w : List Char) (a : Nat) : Prop :=
  ∃ pc ∈ threads, ∃ n, Accepts code n pc w a

theorem awaits_close {threads : List Nat} (h : Closed code threads) (pc : Nat) (w : List Char)
    (a : Nat) : Awaits code (close code threads pc) w a ↔
      Awaits code threads w a ∨ ∃ n, Accepts code n pc w a := by
  have hgrown := close_grown h pc
  constructor
  · intro ⟨q, hq, n, hpath⟩
    obtain hq | ⟨first, hfirst, hpaths⟩ := hgrown.origin q hq
    · exact .inl ⟨q, hq, n, hpath⟩
    · rw [List.mem_singleton] at hfirst
      rw [hfirst] at hpaths
      exact .inr (hpaths n w a hpath)
  · rintro (⟨q, hq, n, hpath⟩ | ⟨n, hpath⟩)
    · exact ⟨q, hgrown.subset hq, n, hpath⟩
    · exact ⟨pc, hgrown.reached pc (List.mem_singleton.mpr rfl) hpath.lt_size, n, hpath⟩

theorem start_closed : Closed code (start code) :=
  (close_grown closed_nil 0).closed

theorem awaits_start (w : List Char) (a : Nat) :
    Awaits code (start code) w a ↔ ∃ n, Accepts code n 0 w a := by
  rw [start, awaits_close closed_nil, or_iff_right]
  rintro ⟨q, hq, -⟩
  exact List.not_mem_nil hq

/-- Of closed threads, one goes on without a step that reads nothing. -/
theorem Accepts.settled {threads : List Nat} (h : Closed code threads) {n pc a : Nat}
    {w : List Char} (hpath : Accepts code n pc w a) (hpc : pc ∈ threads) :
    ∃ q ∈ threads, ∃ i, code[q]? = some i ∧
      ((w = [] ∧ accepted? i = some a) ∨
        ∃ c v m, w = c :: v ∧ reads c i = true ∧ Accepts code m (q + 1) v a) := by
  induction hpath with
  | stop hi => exact ⟨_, hpc, _, hi, .inl ⟨rfl, rfl⟩⟩
  | hop hi htarget hrest ih => exact ih (h _ hpc _ hi _ htarget hrest.lt_size)
  | read hi hreads hrest _ => exact ⟨_, hpc, _, hi, .inr ⟨_, _, _, rfl, hreads, hrest⟩⟩

theorem eq_accept_of_accepted? {i : Instruction} {a : Nat} (h : accepted? i = some a) :
    ∃ alternative : UInt32, i = .accept alternative ∧ alternative.toNat = a := by
  cases i with
  | accept alternative => exact ⟨alternative, rfl, Option.some.inj h⟩
  | _ => exact absurd h (by simp [accepted?])

theorem awaits_nil {threads : List Nat} (h : Closed code threads) (a : Nat) :
    Awaits code threads [] a ↔ ∃ pc ∈ threads, (code[pc]?).bind accepted? = some a := by
  constructor
  · intro ⟨pc, hpc, n, hpath⟩
    obtain ⟨q, hq, i, hi, ⟨-, ha⟩ | ⟨c, v, m, hw, -⟩⟩ := hpath.settled h hpc
    · refine ⟨q, hq, ?_⟩
      rw [hi]
      exact ha
    · exact absurd hw (List.cons_ne_nil c v).symm
  · intro ⟨pc, hpc, hbind⟩
    obtain ⟨i, hi, ha⟩ := Option.bind_eq_some_iff.mp hbind
    obtain ⟨alternative, rfl, rfl⟩ := eq_accept_of_accepted? ha
    exact ⟨pc, hpc, 0, .stop hi⟩

theorem awaits_cons {threads : List Nat} (h : Closed code threads) (c : Char) (w : List Char)
    (a : Nat) : Awaits code threads (c :: w) a ↔
      ∃ pc ∈ threads, (code[pc]?).any (reads c) = true ∧ ∃ n, Accepts code n (pc + 1) w a := by
  constructor
  · intro ⟨pc, hpc, n, hpath⟩
    obtain ⟨q, hq, i, hi, ⟨hw, -⟩ | ⟨d, v, m, hw, hreads, hrest⟩⟩ := hpath.settled h hpc
    · exact absurd hw (List.cons_ne_nil c w)
    · obtain ⟨rfl, rfl⟩ := List.cons.inj hw
      refine ⟨q, hq, ?_, m, hrest⟩
      rw [hi]
      exact hreads
  · intro ⟨pc, hpc, hany, n, hrest⟩
    obtain ⟨i, hi, hreads⟩ := (Option.any_eq_true _ _).mp hany
    exact ⟨pc, hpc, n + 1, .read hi hreads hrest⟩

/-- Reading a character from some of the threads, on top of threads that are there. -/
theorem foldl_close {c : Char} (threads : List Nat) {next : List Nat} (h : Closed code next) :
    Closed code (threads.foldl (fun next pc =>
        if (code[pc]?).any (reads c) then close code next (pc + 1) else next) next) ∧
      ∀ w a, Awaits code (threads.foldl (fun next pc =>
          if (code[pc]?).any (reads c) then close code next (pc + 1) else next) next) w a ↔
        Awaits code next w a ∨
          ∃ pc ∈ threads, (code[pc]?).any (reads c) = true ∧
            ∃ n, Accepts code n (pc + 1) w a := by
  induction threads generalizing next with
  | nil =>
      refine ⟨h, fun w a => ⟨.inl, ?_⟩⟩
      rintro (hnext | ⟨pc, hpc, -⟩)
      · exact hnext
      · exact absurd hpc List.not_mem_nil
  | cons pc threads ih =>
      rw [List.foldl_cons]
      by_cases hany : (code[pc]?).any (reads c) = true
      · rw [if_pos hany]
        obtain ⟨hclosed, hawaits⟩ := ih (close_grown h (pc + 1)).closed
        refine ⟨hclosed, fun w a => ?_⟩
        rw [hawaits, awaits_close h, List.exists_mem_cons_iff, or_assoc]
        simp only [hany, true_and]
      · rw [if_neg hany]
        obtain ⟨hclosed, hawaits⟩ := ih h
        refine ⟨hclosed, fun w a => ?_⟩
        rw [hawaits, List.exists_mem_cons_iff]
        simp only [hany, false_and, false_or, Bool.false_eq_true]

theorem step_closed (c : Char) (threads : List Nat) : Closed code (step code c threads) :=
  (foldl_close threads closed_nil).1

theorem awaits_step {threads : List Nat} (h : Closed code threads) (c : Char) (w : List Char)
    (a : Nat) : Awaits code (step code c threads) w a ↔ Awaits code threads (c :: w) a := by
  rw [awaits_cons h, step, (foldl_close threads closed_nil).2, or_iff_right]
  rintro ⟨q, hq, -⟩
  exact List.not_mem_nil hq

/-! ## What threads report -/

theorem accepts?_eq_none_iff {threads : List Nat} (h : Closed code threads) :
    accepts? code threads = none ↔ ∀ a, ¬Awaits code threads [] a := by
  rw [accepts?, List.min?_eq_none_iff, List.filterMap_eq_nil_iff]
  constructor
  · intro hnone a ha
    obtain ⟨pc, hpc, hsome⟩ := (awaits_nil h a).mp ha
    rw [hnone pc hpc] at hsome
    exact absurd hsome (Option.some_ne_none a).symm
  · intro hnone pc hpc
    rw [Option.eq_none_iff_forall_ne_some]
    intro a ha
    exact hnone a ((awaits_nil h a).mpr ⟨pc, hpc, ha⟩)

theorem isLeast_of_accepts? {threads : List Nat} (h : Closed code threads) {a : Nat}
    (ha : accepts? code threads = some a) : IsLeast {b | Awaits code threads [] b} a := by
  rw [accepts?, List.min?_eq_some_iff] at ha
  obtain ⟨hmem, hle⟩ := ha
  refine ⟨(awaits_nil h a).mpr (List.mem_filterMap.mp hmem), fun b hb => ?_⟩
  exact hle b (List.mem_filterMap.mpr ((awaits_nil h b).mp hb))

end GrammarEngine.LexerCode

/-! ## Languages of code fragments -/
namespace GrammarEngine.LexerCode

variable {code : LexerCode}

/-! ### One step of a path -/

theorem accepts_split_iff {n pc a : Nat} {first second : UInt32} {w : List Char}
    (h : code[pc]? = some (.split first second)) :
    Accepts code n pc w a ↔
      ∃ m, n = m + 1 ∧ (Accepts code m first.toNat w a ∨ Accepts code m second.toNat w a) := by
  constructor
  · intro hpath
    cases hpath with
    | stop hi => simp [h] at hi
    | hop hi htarget hrest =>
        obtain rfl := Option.some.inj (h.symm.trans hi)
        rcases List.mem_pair.mp htarget with rfl | rfl
        · exact ⟨_, rfl, .inl hrest⟩
        · exact ⟨_, rfl, .inr hrest⟩
    | read hi hreads _ =>
        obtain rfl := Option.some.inj (h.symm.trans hi)
        exact absurd hreads Bool.false_ne_true
  · intro ⟨m, hn, hrest⟩
    subst hn
    rcases hrest with hrest | hrest
    · exact .hop h List.mem_cons_self hrest
    · exact .hop h (List.mem_cons_of_mem _ List.mem_cons_self) hrest

theorem exists_accepts_split_iff {pc f s a : Nat} {first second : UInt32} {w : List Char}
    (h : code[pc]? = some (.split first second)) (hf : first.toNat = f) (hs : second.toNat = s) :
    (∃ n, Accepts code n pc w a) ↔
      (∃ n, Accepts code n f w a) ∨ ∃ n, Accepts code n s w a := by
  subst hf hs
  constructor
  · intro ⟨n, hpath⟩
    obtain ⟨m, _, hrest⟩ := (accepts_split_iff h).mp hpath
    exact hrest.imp (⟨m, ·⟩) (⟨m, ·⟩)
  · intro hpath
    rcases hpath with ⟨m, hrest⟩ | ⟨m, hrest⟩
    · exact ⟨m + 1, (accepts_split_iff h).mpr ⟨m, rfl, .inl hrest⟩⟩
    · exact ⟨m + 1, (accepts_split_iff h).mpr ⟨m, rfl, .inr hrest⟩⟩

theorem accepts_jump_iff {n pc a : Nat} {target : UInt32} {w : List Char}
    (h : code[pc]? = some (.jump target)) :
    Accepts code n pc w a ↔ ∃ m, n = m + 1 ∧ Accepts code m target.toNat w a := by
  constructor
  · intro hpath
    cases hpath with
    | stop hi => simp [h] at hi
    | hop hi htarget hrest =>
        obtain rfl := Option.some.inj (h.symm.trans hi)
        rw [List.mem_singleton.mp htarget] at hrest
        exact ⟨_, rfl, hrest⟩
    | read hi hreads _ =>
        obtain rfl := Option.some.inj (h.symm.trans hi)
        exact absurd hreads Bool.false_ne_true
  · intro ⟨m, hn, hrest⟩
    subst hn
    exact .hop h List.mem_cons_self hrest

theorem accepts_accept_iff {n pc a : Nat} {alternative : UInt32} {w : List Char}
    (h : code[pc]? = some (.accept alternative)) :
    Accepts code n pc w a ↔ n = 0 ∧ w = [] ∧ a = alternative.toNat := by
  constructor
  · intro hpath
    cases hpath with
    | stop hi =>
        obtain rfl := Instruction.accept.inj (Option.some.inj (h.symm.trans hi))
        exact ⟨rfl, rfl, rfl⟩
    | hop hi htarget _ =>
        obtain rfl := Option.some.inj (h.symm.trans hi)
        simp [successors] at htarget
    | read hi hreads _ =>
        obtain rfl := Option.some.inj (h.symm.trans hi)
        exact absurd hreads Bool.false_ne_true
  · rintro ⟨hn, hw, ha⟩
    rw [hn, hw, ha]
    exact .stop h

/-- An instruction that does nothing but read. -/
def OnlyReads (i : Instruction) : Prop :=
  successors i = [] ∧ accepted? i = none

theorem accepts_read_iff {n pc a : Nat} {i : Instruction} {w : List Char}
    (h : code[pc]? = some i) (hi : OnlyReads i) :
    Accepts code n pc w a ↔
      ∃ m c v, n = m + 1 ∧ w = c :: v ∧ reads c i = true ∧ Accepts code m (pc + 1) v a := by
  constructor
  · intro hpath
    cases hpath with
    | stop hj =>
        obtain rfl := Option.some.inj (h.symm.trans hj)
        simp [OnlyReads, accepted?] at hi
    | hop hj htarget _ =>
        obtain rfl := Option.some.inj (h.symm.trans hj)
        rw [hi.1] at htarget
        exact absurd htarget List.not_mem_nil
    | read hj hreads hrest =>
        obtain rfl := Option.some.inj (h.symm.trans hj)
        exact ⟨_, _, _, rfl, rfl, hreads, hrest⟩
  · rintro ⟨m, c, v, hn, hw, hreads, hrest⟩
    subst hn hw
    exact .read h hreads hrest

/-! ### Fragments -/

/-- The code from an address to where it is left stands for a language. -/
structure Realizes (code : LexerCode) (pc exit : Nat) (L : List Char → Prop) : Prop where
  complete : ∀ u v a n, L u → Accepts code n exit v a → ∃ m, Accepts code m pc (u ++ v) a
  sound : ∀ n w a, Accepts code n pc w a →
    ∃ u v m, w = u ++ v ∧ L u ∧ m ≤ n ∧ Accepts code m exit v a

variable {L M : List Char → Prop} {pc exit : Nat}

theorem Realizes.congr (h : Realizes code pc exit L) (hLM : ∀ w, L w ↔ M w) :
    Realizes code pc exit M := by
  have hsame : L = M := funext fun w => propext (hLM w)
  rw [← hsame]
  exact h

/-- No code reads the empty word. -/
theorem realizes_nothing (pc : Nat) : Realizes code pc pc (· = []) where
  complete u v a n hu hpath := by
    rw [hu]
    exact ⟨n, hpath⟩
  sound n w a hpath := ⟨[], w, n, rfl, rfl, le_rfl, hpath⟩

theorem Realizes.trans {mid : Nat} (h : Realizes code pc mid L) (h' : Realizes code mid exit M) :
    Realizes code pc exit fun w => ∃ u v, w = u ++ v ∧ L u ∧ M v where
  complete := by
    intro w t a n ⟨u, v, hw, hu, hv⟩ hpath
    obtain ⟨m, hm⟩ := h'.complete v t a n hv hpath
    rw [hw, List.append_assoc]
    exact h.complete u (v ++ t) a m hu hm
  sound := by
    intro n w a hpath
    obtain ⟨u, v, m, hw, hu, hm, hrest⟩ := h.sound n w a hpath
    obtain ⟨v', t, k, hv, hv', hk, hlast⟩ := h'.sound m v a hrest
    refine ⟨u ++ v', t, k, ?_, ⟨u, v', rfl, hu, hv'⟩, hk.trans hm, hlast⟩
    rw [hw, hv, List.append_assoc]

/-- Going on without reading. -/
theorem Realizes.leave {mid : Nat} (h : Realizes code pc mid L)
    (h' : Realizes code mid exit (· = [])) : Realizes code pc exit L := by
  refine (h.trans h').congr fun w => ?_
  constructor
  · intro ⟨u, v, hw, hu, hv⟩
    rw [hw, hv, List.append_nil]
    exact hu
  · intro hw
    exact ⟨w, [], (List.append_nil w).symm, hw, rfl⟩

theorem realizes_read {i : Instruction} (h : code[pc]? = some i) (hi : OnlyReads i) :
    Realizes code pc (pc + 1) fun w => ∃ c, w = [c] ∧ reads c i = true where
  complete := by
    intro u v a n ⟨c, hu, hreads⟩ hpath
    rw [hu]
    exact ⟨n + 1, .read h hreads hpath⟩
  sound := by
    intro n w a hpath
    obtain ⟨m, c, v, hn, hw, hreads, hrest⟩ := (accepts_read_iff h hi).mp hpath
    exact ⟨[c], v, m, hw, ⟨c, rfl, hreads⟩, by omega, hrest⟩

theorem realizes_jump {target : UInt32} (h : code[pc]? = some (.jump target))
    (hexit : target.toNat = exit) : Realizes code pc exit (· = []) where
  complete := by
    intro u v a n hu hpath
    rw [← hexit] at hpath
    rw [hu]
    exact ⟨n + 1, (accepts_jump_iff h).mpr ⟨n, rfl, hpath⟩⟩
  sound := by
    intro n w a hpath
    obtain ⟨m, hn, hrest⟩ := (accepts_jump_iff h).mp hpath
    rw [hexit] at hrest
    exact ⟨[], w, m, rfl, rfl, by omega, hrest⟩

theorem realizes_split {first second : UInt32} {f s : Nat}
    (h : code[pc]? = some (.split first second)) (hf : first.toNat = f) (hs : second.toNat = s)
    (hfirst : Realizes code f exit L) (hsecond : Realizes code s exit M) :
    Realizes code pc exit fun w => L w ∨ M w where
  complete := by
    intro u v a n hu hpath
    subst hf hs
    rcases hu with hu | hu
    · obtain ⟨m, hm⟩ := hfirst.complete u v a n hu hpath
      exact ⟨m + 1, (accepts_split_iff h).mpr ⟨m, rfl, .inl hm⟩⟩
    · obtain ⟨m, hm⟩ := hsecond.complete u v a n hu hpath
      exact ⟨m + 1, (accepts_split_iff h).mpr ⟨m, rfl, .inr hm⟩⟩
  sound := by
    intro n w a hpath
    subst hf hs
    obtain ⟨m, hn, hrest | hrest⟩ := (accepts_split_iff h).mp hpath
    · obtain ⟨u, v, k, hw, hu, hk, hlast⟩ := hfirst.sound m w a hrest
      exact ⟨u, v, k, hw, .inl hu, by omega, hlast⟩
    · obtain ⟨u, v, k, hw, hu, hk, hlast⟩ := hsecond.sound m w a hrest
      exact ⟨u, v, k, hw, .inr hu, by omega, hlast⟩

/-- A loop whose body leads back to where it is decided whether to go on. Its body may read nothing,
but it takes the step of the decision. -/
theorem realizes_loop {first second : UInt32} {f : Nat}
    (h : code[pc]? = some (.split first second)) (hf : first.toNat = f)
    (hexit : second.toNat = exit) (hbody : Realizes code f pc L) :
    Realizes code pc exit fun w =>
      ∃ words : List (List Char), w = words.flatten ∧ ∀ u ∈ words, L u where
  complete := by
    intro w v a n ⟨words, hw, hwords⟩ hpath
    subst hw hf hexit
    induction words with
    | nil => exact ⟨n + 1, (accepts_split_iff h).mpr ⟨n, rfl, .inr hpath⟩⟩
    | cons u words ih =>
        obtain ⟨m, hm⟩ := ih fun u' hu' => hwords u' (List.mem_cons_of_mem u hu')
        have hu : L u := hwords u List.mem_cons_self
        obtain ⟨k, hk⟩ := hbody.complete u (words.flatten ++ v) a m hu hm
        rw [List.flatten_cons, List.append_assoc]
        exact ⟨k + 1, (accepts_split_iff h).mpr ⟨k, rfl, .inl hk⟩⟩
  sound := by
    subst hf hexit
    intro n
    induction n using Nat.strong_induction_on with
    | _ n ih =>
        intro w a hpath
        obtain ⟨m, hn, hrest | hrest⟩ := (accepts_split_iff h).mp hpath
        · obtain ⟨u, v, k, hw, hu, hk, hagain⟩ := hbody.sound m w a hrest
          obtain ⟨v', t, l, hv, ⟨words, hv', hwords⟩, hl, hlast⟩ := ih k (by omega) v a hagain
          refine ⟨u ++ v', t, l, ?_, ⟨u :: words, ?_, ?_⟩, by omega, hlast⟩
          · rw [hw, hv, List.append_assoc]
          · rw [hv', List.flatten_cons]
          · intro u' hu'
            rcases List.mem_cons.mp hu' with rfl | hu'
            · exact hu
            · exact hwords u' hu'
        · exact ⟨[], w, m, rfl, ⟨[], rfl, fun u hu => absurd hu List.not_mem_nil⟩, by omega, hrest⟩

end GrammarEngine.LexerCode
