import GrammarEngine.Proofs.Automaton.Language
import GrammarEngine.Proofs.Checked
import GrammarEngine.Proofs.Lexer.Threads
import Mathlib.Algebra.Group.Nat.Defs

/-!
# What emitters write

An emitter means a language if its code stands for the language wherever the code is placed. The
ways of combining emitters combine their languages. Addresses are words of 32 bits, so the end of
the code has to be one, for code before it jumps there.
-/
namespace GrammarEngine.Automaton

open LexerCode

variable {α : Type} {code : LexerCode} {pc : Nat} {c d : Code}

/-! ## Code in its place -/

/-- Code stands in a program from an address on. -/
def Placed (code : LexerCode) (pc : Nat) (c : Code) : Prop :=
  c.instructions <+: code.toList.drop pc

theorem Placed.append (h : Placed code pc (c ++ d)) :
    Placed code pc c ∧ Placed code (pc + c.size) d := by
  obtain ⟨behind, hbehind⟩ := h
  rw [Code.instructions_append, List.append_assoc] at hbehind
  constructor
  · exact ⟨d.instructions ++ behind, hbehind⟩
  · refine ⟨behind, ?_⟩
    rw [← List.drop_drop, ← hbehind]
    exact (List.drop_left).symm

theorem Placed.get {i : Instruction} (h : Placed code pc (.one i)) : code[pc]? = some i := by
  obtain ⟨behind, hbehind⟩ := h
  have hfirst : (code.toList.drop pc)[0]? = some i := by
    rw [← hbehind]
    rfl
  rwa [List.getElem?_drop, Nat.add_zero, Array.getElem?_toList] at hfirst

theorem Placed.cons {i : Instruction} (h : Placed code pc (.one i ++ c)) :
    code[pc]? = some i ∧ Placed code (pc + 1) c :=
  ⟨h.append.1.get, h.append.2⟩

theorem toNat_address {n : Nat} (h : n < 2 ^ 32) : (UInt32.ofNat n).toNat = n :=
  UInt32.toNat_ofNat_of_lt h

@[simp] theorem size_split (first second : Nat) : (split first second).size = 1 := rfl

@[simp] theorem size_jump (target : Nat) : (jump target).size = 1 := rfl

@[simp] theorem size_accept (alternative : Nat) : (accept alternative).size = 1 := rfl

@[simp] theorem isLazy_split (first second : Nat) : (split first second).isLazy = false := rfl

@[simp] theorem isLazy_jump (target : Nat) : (jump target).isLazy = false := rfl

@[simp] theorem isLazy_accept (alternative : Nat) : (accept alternative).isLazy = false := rfl

/-! ## What combined emitters write -/

variable {e e' : Emitter} {rest : List Emitter}

theorem sequence_cons_eq_ok : sequence (e :: rest) pc = .ok c ↔
    ∃ first, e pc = .ok first ∧ ∃ others, sequence rest (pc + first.size) = .ok others ∧
      first ++ others = c := by
  simp only [sequence, bind_eq_ok, pure, Except.pure, Except.ok.injEq]

theorem alternation_cons_eq_ok : alternation (e :: e' :: rest) pc = .ok c ↔
    ∃ first, e (pc + 1) = .ok first ∧ ∃ next, next = pc + 1 + first.size + 1 ∧
      ∃ others, alternation (e' :: rest) next = .ok others ∧
        split (pc + 1) next ++ first ++ jump (next + others.size) ++ others = c := by
  simp only [alternation, bind_eq_ok, pure, Except.pure, Except.ok.injEq, exists_eq_left]

theorem optional_eq_ok : repetition .optional e pc = .ok c ↔
    ∃ body, e (pc + 1) = .ok body ∧ split (pc + 1) (pc + 1 + body.size) ++ body = c := by
  simp only [repetition, bind_eq_ok, pure, Except.pure, Except.ok.injEq]

theorem zeroOrMore_eq_ok : repetition .zeroOrMore e pc = .ok c ↔
    ∃ body, e (pc + 1) = .ok body ∧
      split (pc + 1) (pc + 1 + body.size + 1) ++ body ++ jump pc = c := by
  simp only [repetition, bind_eq_ok, pure, Except.pure, Except.ok.injEq]

theorem oneOrMore_eq_ok : repetition .oneOrMore e pc = .ok c ↔
    ∃ body, e pc = .ok body ∧ body ++ split pc (pc + body.size + 1) = c := by
  simp only [repetition, bind_eq_ok, pure, Except.pure, Except.ok.injEq]

theorem ruleEmitter_singleton_eq_ok {index : Nat} : ruleEmitter index [e] pc = .ok c ↔
    ∃ body, e pc = .ok body ∧ body ++ accept index = c := by
  simp only [ruleEmitter, bind_eq_ok, pure, Except.pure, Except.ok.injEq]

theorem ruleEmitter_cons_eq_ok {index : Nat} : ruleEmitter index (e :: e' :: rest) pc = .ok c ↔
    ∃ first, e (pc + 1) = .ok first ∧ ∃ next, next = pc + 1 + first.size + 1 ∧
      ∃ others, ruleEmitter (index + 1) (e' :: rest) next = .ok others ∧
        split (pc + 1) next ++ first ++ accept index ++ others = c := by
  simp only [ruleEmitter, bind_eq_ok, pure, Except.pure, Except.ok.injEq, exists_eq_left]

/-! ## Emitters and their languages -/

/-- What an emitter writes stands for a language wherever it is placed, and is marked as lazy
exactly under a condition. -/
structure Means (e : Emitter) (L : List Char → Prop) (lazily : Prop) : Prop where
  isLazy_iff : ∀ pc c, e pc = .ok c → (c.isLazy = true ↔ lazily)
  realizes : ∀ pc c, e pc = .ok c → ∀ code, Placed code pc c → pc + c.size < 2 ^ 32 →
    Realizes code pc (pc + c.size) L

variable {L M : List Char → Prop} {lazily lazily' : Prop}

theorem Means.congr (h : Means e L lazily) (hLM : ∀ w, L w ↔ M w) (hlazily : lazily ↔ lazily') :
    Means e M lazily' where
  isLazy_iff pc c hc := (h.isLazy_iff pc c hc).trans hlazily
  realizes pc c hc code hplaced hroom := (h.realizes pc c hc code hplaced hroom).congr hLM

theorem means_skip : Means skip (· = []) False where
  isLazy_iff pc c hc := by
    cases hc
    simp
  realizes pc c hc code _ _ := by
    cases hc
    exact realizes_nothing pc

theorem means_refuse (p : Position) (fault : CompileFault) : Means (refuse p fault) L lazily where
  isLazy_iff pc c hc := by cases hc
  realizes pc c hc := by cases hc

theorem means_markLazy (h : Means e L lazily) (isLazy : Bool) :
    Means (markLazy isLazy e) L (isLazy = true ∨ lazily) where
  isLazy_iff pc c hc := by
    obtain ⟨body, hbody, rfl⟩ := map_eq_ok.mp hc
    rw [Bool.or_eq_true, h.isLazy_iff pc body hbody]
  realizes pc c hc code hplaced hroom := by
    obtain ⟨body, hbody, rfl⟩ := map_eq_ok.mp hc
    exact h.realizes pc body hbody code hplaced hroom

/-! ## Characters -/

/-- Instructions that only read, one after the other. -/
theorem realizes_reads {instructions : List Instruction} (isLazy : Bool)
    (h : ∀ i ∈ instructions, OnlyReads i) (hplaced : Placed code pc ⟨instructions, isLazy⟩) :
    Realizes code pc (pc + instructions.length)
      (List.Forall₂ (fun i c => reads c i = true) instructions) := by
  induction instructions generalizing pc with
  | nil => exact (realizes_nothing pc).congr fun w => List.forall₂_nil_left_iff.symm
  | cons i rest ih =>
      have hcons : Placed code pc (.one i ++ ⟨rest, isLazy⟩) := hplaced
      have hread := realizes_read hcons.cons.1 (h i List.mem_cons_self)
      have hrest := ih (fun j hj => h j (List.mem_cons_of_mem i hj)) hcons.cons.2
      have hlength : pc + (i :: rest).length = pc + 1 + rest.length := by
        rw [List.length_cons]
        omega
      rw [hlength]
      refine (hread.trans hrest).congr fun w => ?_
      rw [List.forall₂_cons_left_iff]
      constructor
      · intro ⟨u, v, hw, ⟨c, hu, hreads⟩, hv⟩
        exact ⟨c, v, hreads, hv, by rw [hw, hu, List.singleton_append]⟩
      · intro ⟨c, v, hreads, hv, hw⟩
        exact ⟨[c], v, hw, ⟨c, rfl, hreads⟩, hv⟩

theorem means_emit {instructions : List Instruction} (h : ∀ i ∈ instructions, OnlyReads i) :
    Means (emit instructions) (List.Forall₂ (fun i c => reads c i = true) instructions) False where
  isLazy_iff pc c hc := by
    cases hc
    simp
  realizes pc c hc code hplaced _ := by
    cases hc
    exact realizes_reads false h hplaced

/-! ## Sequences -/

theorem sequenced_cons_iff {P : α → List Char → Prop} {x : α} {xs : List α} {w : List Char} :
    Sequenced P (x :: xs) w ↔ ∃ u v, w = u ++ v ∧ P x u ∧ Sequenced P xs v := by
  constructor
  · intro ⟨words, hw, hwords⟩
    obtain ⟨u, rest, hu, hrest, hcons⟩ := List.forall₂_cons_left_iff.mp hwords
    rw [hcons, List.flatten_cons] at hw
    exact ⟨u, rest.flatten, hw, hu, rest, rfl, hrest⟩
  · intro ⟨u, v, hw, hu, rest, hv, hrest⟩
    rw [hv] at hw
    exact ⟨u :: rest, hw, .cons hu hrest⟩

theorem sequenced_nil_iff {P : α → List Char → Prop} {w : List Char} :
    Sequenced P [] w ↔ w = [] := by
  constructor
  · intro ⟨words, hw, hwords⟩
    rw [hw, List.forall₂_nil_left_iff.mp hwords]
    rfl
  · intro hw
    exact ⟨[], hw, .nil⟩

theorem means_sequence {f : α → Emitter} {P : α → List Char → Prop} {Z : α → Prop} {xs : List α}
    (h : ∀ x ∈ xs, Means (f x) (P x) (Z x)) :
    Means (sequence (xs.map f)) (Sequenced P xs) (∃ x ∈ xs, Z x) := by
  induction xs with
  | nil =>
      refine Means.congr (e := skip) means_skip (fun w => sequenced_nil_iff.symm) ?_
      simp
  | cons x xs ih =>
      have hx := h x List.mem_cons_self
      have hxs := ih fun y hy => h y (List.mem_cons_of_mem x hy)
      constructor
      · intro pc c hc
        obtain ⟨first, hfirst, others, hothers, rfl⟩ := sequence_cons_eq_ok.mp hc
        rw [Code.isLazy_append, Bool.or_eq_true, hx.isLazy_iff _ _ hfirst,
          hxs.isLazy_iff _ _ hothers, List.exists_mem_cons_iff]
      · intro pc c hc code hplaced hroom
        obtain ⟨first, hfirst, others, hothers, rfl⟩ := sequence_cons_eq_ok.mp hc
        rw [Code.size_append, ← Nat.add_assoc] at hroom ⊢
        have hhead := hx.realizes pc first hfirst code hplaced.append.1 (by omega)
        have htail := hxs.realizes _ others hothers code hplaced.append.2 hroom
        exact (hhead.trans htail).congr fun w => sequenced_cons_iff.symm

/-! ## Alternatives -/

theorem means_alternation_cons (he : Means e L lazily)
    (hrest : Means (alternation (e' :: rest)) M lazily') :
    Means (alternation (e :: e' :: rest)) (fun w => L w ∨ M w) (lazily ∨ lazily') where
  isLazy_iff pc c hc := by
    obtain ⟨first, hfirst, next, -, others, hothers, rfl⟩ := alternation_cons_eq_ok.mp hc
    simp only [Code.isLazy_append, isLazy_split, isLazy_jump, Bool.false_or, Bool.or_false,
      Bool.or_eq_true, he.isLazy_iff _ _ hfirst, hrest.isLazy_iff _ _ hothers]
  realizes pc c hc code hplaced hroom := by
    obtain ⟨first, hfirst, next, hnext, others, hothers, rfl⟩ := alternation_cons_eq_ok.mp hc
    obtain ⟨hplaced, hothersPlaced⟩ := hplaced.append
    obtain ⟨hplaced, hjump⟩ := hplaced.append
    obtain ⟨hsplit, hfirstPlaced⟩ := hplaced.cons
    simp only [Code.size_append, size_split, size_jump, ← Nat.add_assoc, ← hnext]
      at hroom hothersPlaced hjump ⊢
    have hfirstCode := he.realizes _ first hfirst code hfirstPlaced (by omega)
    have hothersCode := hrest.realizes _ others hothers code hothersPlaced hroom
    have hjumps := realizes_jump hjump.get (toNat_address hroom)
    exact realizes_split hsplit (toNat_address (by omega)) (toNat_address (by omega))
      (hfirstCode.leave hjumps) hothersCode

theorem means_alternation {f : α → Emitter} {P : α → List Char → Prop} {Z : α → Prop} {xs : List α}
    (hne : xs ≠ []) (h : ∀ x ∈ xs, Means (f x) (P x) (Z x)) :
    Means (alternation (xs.map f)) (fun w => ∃ x ∈ xs, P x w) (∃ x ∈ xs, Z x) := by
  induction xs with
  | nil => exact absurd rfl hne
  | cons x xs ih =>
      have hx := h x List.mem_cons_self
      cases xs with
      | nil => exact hx.congr (by simp) (by simp)
      | cons y ys =>
          have hys := ih (List.cons_ne_nil y ys) fun z hz => h z (List.mem_cons_of_mem x hz)
          exact (means_alternation_cons hx hys).congr
            (fun w => (List.exists_mem_cons_iff (P · w) x (y :: ys)).symm)
            (List.exists_mem_cons_iff Z x (y :: ys)).symm

/-! ## Repetitions -/

theorem iterated_optional_iff {w : List Char} : Iterated L .optional w ↔ L w ∨ w = [] := by
  constructor
  · intro ⟨words, hw, hadmits, hwords⟩
    match words, hadmits with
    | [], _ => exact .inr hw
    | [u], _ =>
        rw [List.flatten_singleton] at hw
        rw [hw]
        exact .inl (hwords u List.mem_cons_self)
  · intro h
    rcases h with h | h
    · refine ⟨[w], List.flatten_singleton.symm, le_rfl, fun u hu => ?_⟩
      rwa [List.mem_singleton.mp hu]
    · exact ⟨[], h, Nat.zero_le 1, fun u hu => absurd hu List.not_mem_nil⟩

theorem iterated_zeroOrMore_iff {w : List Char} :
    Iterated L .zeroOrMore w ↔
      ∃ words : List (List Char), w = words.flatten ∧ ∀ u ∈ words, L u := by
  constructor
  · intro ⟨words, hw, _, hwords⟩
    exact ⟨words, hw, hwords⟩
  · intro ⟨words, hw, hwords⟩
    exact ⟨words, hw, trivial, hwords⟩

theorem iterated_oneOrMore_iff {w : List Char} :
    Iterated L .oneOrMore w ↔ ∃ u v, w = u ++ v ∧ L u ∧
      ∃ words : List (List Char), v = words.flatten ∧ ∀ u ∈ words, L u := by
  constructor
  · intro ⟨words, hw, hadmits, hwords⟩
    match words, hadmits with
    | u :: rest, _ =>
        have hrest : ∀ v ∈ rest, L v := fun v hv => hwords v (List.mem_cons_of_mem u hv)
        exact ⟨u, rest.flatten, hw, hwords u List.mem_cons_self, rest, rfl, hrest⟩
  · intro ⟨u, v, hw, hu, words, hv, hwords⟩
    rw [hv] at hw
    refine ⟨u :: words, hw, Nat.le_add_left 1 words.length, fun u' hu' => ?_⟩
    rcases List.mem_cons.mp hu' with rfl | hu'
    · exact hu
    · exact hwords u' hu'

theorem means_optional (h : Means e L lazily) :
    Means (repetition .optional e) (Iterated L .optional) lazily where
  isLazy_iff pc c hc := by
    obtain ⟨body, hbody, rfl⟩ := optional_eq_ok.mp hc
    rw [Code.isLazy_append, isLazy_split, Bool.false_or, h.isLazy_iff _ _ hbody]
  realizes pc c hc code hplaced hroom := by
    obtain ⟨body, hbody, rfl⟩ := optional_eq_ok.mp hc
    obtain ⟨hsplit, hplaced⟩ := hplaced.cons
    rw [Code.size_append, size_split, ← Nat.add_assoc] at hroom ⊢
    have hbodyCode := h.realizes _ body hbody code hplaced hroom
    exact (realizes_split hsplit (toNat_address (by omega)) (toNat_address hroom) hbodyCode
      (realizes_nothing _)).congr fun w => iterated_optional_iff.symm

theorem means_zeroOrMore (h : Means e L lazily) :
    Means (repetition .zeroOrMore e) (Iterated L .zeroOrMore) lazily where
  isLazy_iff pc c hc := by
    obtain ⟨body, hbody, rfl⟩ := zeroOrMore_eq_ok.mp hc
    rw [Code.isLazy_append, Code.isLazy_append, isLazy_split, isLazy_jump, Bool.false_or,
      Bool.or_false, h.isLazy_iff _ _ hbody]
  realizes pc c hc code hplaced hroom := by
    obtain ⟨body, hbody, rfl⟩ := zeroOrMore_eq_ok.mp hc
    obtain ⟨hplaced, hjump⟩ := hplaced.append
    obtain ⟨hsplit, hplaced⟩ := hplaced.cons
    simp only [Code.size_append, size_split, size_jump, ← Nat.add_assoc] at hroom hjump ⊢
    have hbodyCode := h.realizes _ body hbody code hplaced (by omega)
    have hback := realizes_jump hjump.get (toNat_address (by omega))
    exact (realizes_loop hsplit (toNat_address (by omega)) (toNat_address hroom)
      (hbodyCode.leave hback)).congr fun w => iterated_zeroOrMore_iff.symm

theorem means_oneOrMore (h : Means e L lazily) :
    Means (repetition .oneOrMore e) (Iterated L .oneOrMore) lazily where
  isLazy_iff pc c hc := by
    obtain ⟨body, hbody, rfl⟩ := oneOrMore_eq_ok.mp hc
    rw [Code.isLazy_append, isLazy_split, Bool.or_false, h.isLazy_iff _ _ hbody]
  realizes pc c hc code hplaced hroom := by
    obtain ⟨body, hbody, rfl⟩ := oneOrMore_eq_ok.mp hc
    obtain ⟨hplaced, hsplit⟩ := hplaced.append
    rw [Code.size_append, size_split, ← Nat.add_assoc] at hroom ⊢
    have hbodyCode := h.realizes _ body hbody code hplaced (by omega)
    have hloop :=
      realizes_loop hsplit.get (toNat_address (by omega)) (toNat_address hroom) hbodyCode
    exact (hbodyCode.trans hloop).congr fun w => iterated_oneOrMore_iff.symm

theorem means_repetition (h : Means e L lazily) (kind : Repetition) :
    Means (repetition kind e) (Iterated L kind) lazily := by
  cases kind with
  | optional => exact means_optional h
  | zeroOrMore => exact means_zeroOrMore h
  | oneOrMore => exact means_oneOrMore h

end GrammarEngine.Automaton
