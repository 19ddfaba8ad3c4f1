import GrammarEngine.Lexer.Program
import GrammarEngine.Proofs.Automaton.Emitters
import GrammarEngine.Proofs.Automaton.Rules

/-!
# Instructions of programs

An instruction of the program of a rule reads no character, or it was written for a literal, a set
or a wildcard that occurs in the expressions of the rule, also through references. Ways of combining
emitters only add instructions that read nothing.

Every instruction goes on inside the program. Code of an expression jumps at most to the address
after its end, where the code that follows it starts, and in the program of a rule this is always
the report of an alternative of the rule. An address that does not fit into a word is stored as a
smaller one, so nothing has to be known of the size of the code.
-/
namespace GrammarEngine.Automaton

open LexerCode

/-! ## Where instructions come from -/

/-- An instruction that is written for an expression itself. -/
inductive WrittenFor (ignoreCase : Bool) : UnitExpr → Instruction → Prop
  | literal {text : String} (p : Position) {c : Char} :
      c ∈ text.toList → WrittenFor ignoreCase (.literal text p) (charInstruction ignoreCase c)
  | ranges (ranges : List CharRanges.Range) (negated : Bool) :
      WrittenFor ignoreCase (.ranges ranges negated) (setInstruction ignoreCase ranges negated)
  | any : WrittenFor ignoreCase .any .any

/-- An instruction that reads nothing. -/
def Silent (i : Instruction) : Prop := ∀ c, reads c i = false

/-- An expression occurs in the alternatives of a rule. -/
def OccursIn (table : Table) (inner : UnitExpr) (alternatives : List (List UnitExpr)) : Prop :=
  ∃ items ∈ alternatives, ∃ item ∈ items, Occurs table inner item

variable {table : Table} {ignoreCase : Bool} {inline : Inliner} {pc : Nat} {c d : Code}
  {e : Emitter} {es : List Emitter} {Q R : Instruction → Prop}

/-- Code in which what is not silent has a property. -/
def Code.Holds (R : Instruction → Prop) (c : Code) : Prop :=
  ∀ i ∈ c.instructions, Silent i ∨ R i

theorem Code.Holds.append (hc : c.Holds R) (hd : d.Holds R) : (c ++ d).Holds R := by
  intro i hi
  rw [instructions_append] at hi
  exact (List.mem_append.mp hi).elim (hc i) (hd i)

theorem holds_one {i : Instruction} (h : Silent i) : (Code.one i).Holds R := by
  intro j hj
  rw [List.mem_singleton.mp hj]
  exact .inl h

theorem holds_split (first second : Nat) : (split first second).Holds R :=
  holds_one fun _ => rfl

theorem holds_jump (target : Nat) : (jump target).Holds R := holds_one fun _ => rfl

theorem holds_accept (alternative : Nat) : (accept alternative).Holds R := holds_one fun _ => rfl

/-! ### Emitters -/

/-- Whatever the emitter writes is silent or has a property. -/
def Writes (R : Instruction → Prop) (e : Emitter) : Prop := ∀ pc c, e pc = .ok c → c.Holds R

theorem Writes.mono (h : Writes Q e) (himp : ∀ i, Q i → R i) : Writes R e :=
  fun pc c hc i hi => (h pc c hc i hi).imp_right (himp i)

theorem writes_skip : Writes R skip := by
  intro pc c hc
  cases hc
  exact fun i hi => absurd hi List.not_mem_nil

theorem writes_refuse (p : Position) (fault : CompileFault) : Writes R (refuse p fault) := by
  intro pc c hc
  cases hc

theorem writes_emit {instructions : List Instruction} (h : ∀ i ∈ instructions, R i) :
    Writes R (emit instructions) := by
  intro pc c hc
  cases hc
  exact fun i hi => .inr (h i hi)

theorem writes_markLazy (h : Writes R e) (isLazy : Bool) : Writes R (markLazy isLazy e) := by
  intro pc c hc
  obtain ⟨body, hbody, rfl⟩ := map_eq_ok.mp hc
  exact h pc body hbody

theorem writes_sequence (h : ∀ e ∈ es, Writes R e) : Writes R (sequence es) := by
  induction es with
  | nil => exact writes_skip
  | cons e rest ih =>
      intro pc c hc
      obtain ⟨first, hfirst, others, hothers, rfl⟩ := sequence_cons_eq_ok.mp hc
      exact (h e List.mem_cons_self pc first hfirst).append
        (ih (fun e' he' => h e' (List.mem_cons_of_mem e he')) _ others hothers)

theorem writes_alternation (h : ∀ e ∈ es, Writes R e) : Writes R (alternation es) := by
  induction es with
  | nil => exact writes_skip
  | cons e rest ih =>
      have he := h e List.mem_cons_self
      cases rest with
      | nil => exact he
      | cons e' rest =>
          intro pc c hc
          obtain ⟨first, hfirst, next, -, others, hothers, rfl⟩ := alternation_cons_eq_ok.mp hc
          have hothersHold := ih (fun d hd => h d (List.mem_cons_of_mem e hd)) _ others hothers
          exact (((holds_split _ _).append (he _ first hfirst)).append (holds_jump _)).append
            hothersHold

theorem writes_repetition (h : Writes R e) (kind : Repetition) :
    Writes R (repetition kind e) := by
  intro pc c hc
  cases kind with
  | optional =>
      obtain ⟨body, hbody, rfl⟩ := optional_eq_ok.mp hc
      exact (holds_split _ _).append (h _ body hbody)
  | zeroOrMore =>
      obtain ⟨body, hbody, rfl⟩ := zeroOrMore_eq_ok.mp hc
      exact ((holds_split _ _).append (h _ body hbody)).append (holds_jump _)
  | oneOrMore =>
      obtain ⟨body, hbody, rfl⟩ := oneOrMore_eq_ok.mp hc
      exact (h _ body hbody).append (holds_split _ _)

theorem writes_ruleEmitter (h : ∀ e ∈ es, Writes R e) (index : Nat) :
    Writes R (ruleEmitter index es) := by
  induction es generalizing index with
  | nil => exact writes_skip
  | cons e rest ih =>
      have he := h e List.mem_cons_self
      intro pc c hc
      cases rest with
      | nil =>
          obtain ⟨body, hbody, rfl⟩ := ruleEmitter_singleton_eq_ok.mp hc
          exact (he _ body hbody).append (holds_accept _)
      | cons e' rest =>
          obtain ⟨first, hfirst, next, -, others, hothers, rfl⟩ :=
            ruleEmitter_cons_eq_ok.mp hc
          have hothersHold :=
            ih (fun d hd => h d (List.mem_cons_of_mem e hd)) (index + 1) _ others hothers
          exact (((holds_split _ _).append (he _ first hfirst)).append (holds_accept _)).append
            hothersHold

/-! ### Expressions and rules -/

/-- An instruction that is written for something that occurs in an expression. -/
def StemsFrom (ignoreCase : Bool) (table : Table) (e : UnitExpr) (i : Instruction) : Prop :=
  ∃ inner, Occurs table inner e ∧ WrittenFor ignoreCase inner i

mutual
theorem emitter_writes
    (hinline : ∀ name p, Writes (StemsFrom ignoreCase table (.ref name p)) (inline name p)) :
    ∀ e : UnitExpr, Writes (StemsFrom ignoreCase table e) (emitter ignoreCase inline e)
  | .empty => writes_skip
  | .seq items => writes_sequence fun e he => by
      obtain ⟨item, hitem, hwrites⟩ := emitters_write hinline items e he
      exact hwrites.mono fun i ⟨inner, hinner, hi⟩ => ⟨inner, .seq hitem hinner, hi⟩
  | .choice items => writes_alternation fun e he => by
      obtain ⟨item, hitem, hwrites⟩ := emitters_write hinline items e he
      exact hwrites.mono fun i ⟨inner, hinner, hi⟩ => ⟨inner, .choice hitem hinner, hi⟩
  | .repeated kind isLazy body => by
      have hbody := writes_repetition (emitter_writes hinline body) kind
      exact (writes_markLazy hbody isLazy).mono fun i ⟨inner, hinner, hi⟩ =>
        ⟨inner, .repeated kind isLazy hinner, hi⟩
  | .literal text p => by
      refine writes_emit fun i hi => ?_
      obtain ⟨c, hc, rfl⟩ := List.mem_map.mp hi
      exact ⟨_, .self, .literal p hc⟩
  | .ranges ranges negated => by
      refine writes_emit fun i hi => ?_
      rw [List.mem_singleton.mp hi]
      exact ⟨_, .self, .ranges ranges negated⟩
  | .any => by
      refine writes_emit fun i hi => ?_
      rw [List.mem_singleton.mp hi]
      exact ⟨_, .self, .any⟩
  | .ref name p => hinline name p
  | .token _ p => writes_refuse p _
  | .notTokens _ p => writes_refuse p _
  | .invoke _ _ p => writes_refuse p _
  | .eof => writes_refuse _ _

theorem emitters_write
    (hinline : ∀ name p, Writes (StemsFrom ignoreCase table (.ref name p)) (inline name p)) :
    ∀ items : List UnitExpr, ∀ e ∈ emitters ignoreCase inline items,
      ∃ item ∈ items, Writes (StemsFrom ignoreCase table item) e
  | [], _, he => absurd he List.not_mem_nil
  | item :: rest, e, he => by
      rcases List.mem_cons.mp he with rfl | he
      · exact ⟨item, List.mem_cons_self, emitter_writes hinline item⟩
      · obtain ⟨other, hother, hwrites⟩ := emitters_write hinline rest e he
        exact ⟨other, List.mem_cons_of_mem item hother, hwrites⟩
end

/-- The alternatives of a rule, or of one that is inlined. -/
theorem alternatives_write {alternatives : List (List UnitExpr)}
    (hinline : ∀ name p, Writes (StemsFrom ignoreCase table (.ref name p)) (inline name p)) :
    ∀ e ∈ alternatives.map fun items => sequence (emitters ignoreCase inline items),
      Writes (fun i => ∃ inner, OccursIn table inner alternatives ∧ WrittenFor ignoreCase inner i)
        e := by
  intro e he
  obtain ⟨items, hitems, rfl⟩ := List.mem_map.mp he
  refine writes_sequence fun e he => ?_
  obtain ⟨item, hitem, hwrites⟩ := emitters_write hinline items e he
  exact hwrites.mono fun i ⟨inner, hinner, hi⟩ =>
    ⟨inner, ⟨items, hitems, item, hitem, hinner⟩, hi⟩

theorem inlineAt_writes (bound : Nat) (active : List String) (name : String) (p : Position) :
    Writes (StemsFrom ignoreCase table (.ref name p))
      (inlineAt ignoreCase table bound active name p) := by
  induction bound generalizing active name p with
  | zero => exact writes_refuse p _
  | succ bound ih =>
      unfold inlineAt
      split
      · exact writes_refuse p _
      · split
        · exact writes_refuse p _
        · next alternatives hlookup =>
          refine writes_alternation fun e he => ?_
          refine (alternatives_write (ih (name :: active)) e he).mono ?_
          rintro i ⟨inner, ⟨items, hitems, item, hitem, hinner⟩, hi⟩
          exact ⟨inner, .ref p hlookup hitems hitem hinner, hi⟩

/-- Every instruction of a program is silent, or written for what occurs in its rule. -/
theorem compileRule_writes {name : String} {alternatives : List (List UnitExpr)}
    (h : compileRule ignoreCase table name alternatives = .ok c) : ∀ i ∈ c.instructions,
      Silent i ∨ ∃ inner, OccursIn table inner alternatives ∧ WrittenFor ignoreCase inner i :=
  writes_ruleEmitter (alternatives_write (inlineAt_writes _ _)) 0 0 c h

end GrammarEngine.Automaton

/-! ## Targets stay inside the program -/
namespace GrammarEngine.Automaton

variable {limit limit' pc : Nat} {i : Instruction} {c d : Code} {e : Emitter}
  {es : List Emitter}

/-- An instruction that goes on at most at a given address. Code of an expression reports
nothing. -/
def Stays (limit : Nat) : Instruction → Prop
  | .split first second => first.toNat ≤ limit ∧ second.toNat ≤ limit
  | .jump target => target.toNat ≤ limit
  | .accept _ => False
  | _ => True

theorem Stays.mono (h : Stays limit i) (hle : limit ≤ limit') : Stays limit' i := by
  cases i with
  | split first second => exact ⟨h.1.trans hle, h.2.trans hle⟩
  | jump target => exact Nat.le_trans h hle
  | accept alternative => exact h
  | char | ranges | any => trivial

theorem Stays.inRange {size alternatives : Nat} (h : Stays limit i) (hlt : limit < size) :
    LexerProgram.inRange size alternatives i = true := by
  cases i with
  | split first second =>
      have hfirst : first.toNat < size := Nat.lt_of_le_of_lt h.1 hlt
      have hsecond : second.toNat < size := Nat.lt_of_le_of_lt h.2 hlt
      simp [LexerProgram.inRange, hfirst, hsecond]
  | jump target =>
      have htarget : target.toNat < size := Nat.lt_of_le_of_lt h hlt
      simp [LexerProgram.inRange, htarget]
  | accept alternative => exact absurd h id
  | char | ranges | any => rfl

theorem toNat_ofNat_le (n : Nat) : (UInt32.ofNat n).toNat ≤ n := by
  rw [UInt32.toNat_ofNat']
  exact Nat.mod_le n _

/-- Code all of which goes on at most at a given address. -/
def Code.Stays (limit : Nat) (c : Code) : Prop :=
  ∀ i ∈ c.instructions, Automaton.Stays limit i

theorem Code.Stays.append (hc : c.Stays limit) (hd : d.Stays limit) : (c ++ d).Stays limit := by
  intro i hi
  rw [instructions_append] at hi
  rcases List.mem_append.mp hi with hi | hi
  · exact hc i hi
  · exact hd i hi

theorem Code.Stays.mono (hc : c.Stays limit) (hle : limit ≤ limit') : c.Stays limit' :=
  fun i hi => (hc i hi).mono hle

theorem stays_split {first second : Nat} (hfirst : first ≤ limit) (hsecond : second ≤ limit) :
    (split first second).Stays limit := by
  intro i hi
  rw [List.mem_singleton.mp hi]
  exact ⟨(toNat_ofNat_le first).trans hfirst, (toNat_ofNat_le second).trans hsecond⟩

theorem stays_jump {target : Nat} (h : target ≤ limit) : (jump target).Stays limit := by
  intro i hi
  rw [List.mem_singleton.mp hi]
  exact (toNat_ofNat_le target).trans h

/-! ### Emitters -/

/-- Whatever the emitter writes goes on at most after its end. -/
def Confined (e : Emitter) : Prop := ∀ pc c, e pc = .ok c → c.Stays (pc + c.size)

theorem confined_skip : Confined skip := by
  intro pc c hc
  cases hc
  exact fun i hi => absurd hi List.not_mem_nil

theorem confined_refuse (p : Position) (fault : CompileFault) : Confined (refuse p fault) := by
  intro pc c hc
  cases hc

theorem confined_emit {instructions : List Instruction}
    (h : ∀ i ∈ instructions, Stays 0 i) : Confined (emit instructions) := by
  intro pc c hc
  cases hc
  exact fun i hi => (h i hi).mono (Nat.zero_le _)

theorem confined_markLazy (h : Confined e) (isLazy : Bool) : Confined (markLazy isLazy e) := by
  intro pc c hc
  obtain ⟨body, hbody, rfl⟩ := map_eq_ok.mp hc
  exact h pc body hbody

theorem confined_sequence (h : ∀ e ∈ es, Confined e) : Confined (sequence es) := by
  induction es with
  | nil => exact confined_skip
  | cons e rest ih =>
      intro pc c hc
      obtain ⟨first, hfirst, others, hothers, rfl⟩ := sequence_cons_eq_ok.mp hc
      have hfirstStays := h e List.mem_cons_self pc first hfirst
      have hothersStays := ih (fun e' he' => h e' (List.mem_cons_of_mem e he')) _ others hothers
      rw [Code.size_append, ← Nat.add_assoc]
      exact (hfirstStays.mono (by omega)).append hothersStays

theorem confined_alternation (h : ∀ e ∈ es, Confined e) : Confined (alternation es) := by
  induction es with
  | nil => exact confined_skip
  | cons e rest ih =>
      have he := h e List.mem_cons_self
      cases rest with
      | nil => exact he
      | cons e' rest =>
          intro pc c hc
          obtain ⟨first, hfirst, next, hnext, others, hothers, rfl⟩ := alternation_cons_eq_ok.mp hc
          have hothersStays := ih (fun d hd => h d (List.mem_cons_of_mem e hd)) _ others hothers
          simp only [Code.size_append, size_split, size_jump, ← Nat.add_assoc, ← hnext]
          have hfirstStays : first.Stays (next + others.size) :=
            (he _ first hfirst).mono (by omega)
          exact (((stays_split (by omega) (by omega)).append hfirstStays).append
            (stays_jump le_rfl)).append hothersStays

theorem confined_repetition (h : Confined e) (kind : Repetition) :
    Confined (repetition kind e) := by
  intro pc c hc
  cases kind with
  | optional =>
      obtain ⟨body, hbody, rfl⟩ := optional_eq_ok.mp hc
      rw [Code.size_append, size_split, ← Nat.add_assoc]
      exact (stays_split (by omega) (by omega)).append (h _ body hbody)
  | zeroOrMore =>
      obtain ⟨body, hbody, rfl⟩ := zeroOrMore_eq_ok.mp hc
      simp only [Code.size_append, size_split, size_jump, ← Nat.add_assoc]
      exact ((stays_split (by omega) (by omega)).append
        ((h _ body hbody).mono (by omega))).append (stays_jump (by omega))
  | oneOrMore =>
      obtain ⟨body, hbody, rfl⟩ := oneOrMore_eq_ok.mp hc
      rw [Code.size_append, size_split, ← Nat.add_assoc]
      exact ((h _ body hbody).mono (by omega)).append (stays_split (by omega) (by omega))

/-! ### Expressions and rules -/

variable {ignoreCase : Bool} {inline : Inliner}

theorem stays_charInstruction (c : Char) : Stays 0 (charInstruction ignoreCase c) := by
  simp only [charInstruction]
  split <;> trivial

mutual
theorem emitter_confined (hinline : ∀ name p, Confined (inline name p)) :
    ∀ e : UnitExpr, Confined (emitter ignoreCase inline e)
  | .empty => confined_skip
  | .seq items => confined_sequence (emitters_confined hinline items)
  | .choice items => confined_alternation (emitters_confined hinline items)
  | .repeated kind isLazy body =>
      confined_markLazy (confined_repetition (emitter_confined hinline body) kind) isLazy
  | .literal text p => by
      refine confined_emit fun i hi => ?_
      obtain ⟨c, _, hc⟩ := List.mem_map.mp hi
      rw [← hc]
      exact stays_charInstruction c
  | .ranges ranges negated => by
      refine confined_emit fun i hi => ?_
      rw [List.mem_singleton.mp hi]
      trivial
  | .any => by
      refine confined_emit fun i hi => ?_
      rw [List.mem_singleton.mp hi]
      trivial
  | .ref name p => hinline name p
  | .token _ p => confined_refuse p _
  | .notTokens _ p => confined_refuse p _
  | .invoke _ _ p => confined_refuse p _
  | .eof => confined_refuse _ _

theorem emitters_confined (hinline : ∀ name p, Confined (inline name p)) :
    ∀ items : List UnitExpr, ∀ e ∈ emitters ignoreCase inline items, Confined e
  | [], _, he => absurd he List.not_mem_nil
  | item :: rest, e, he => by
      rcases List.mem_cons.mp he with rfl | he
      · exact emitter_confined hinline item
      · exact emitters_confined hinline rest e he
end

theorem inlineAt_confined {table : Table} (bound : Nat) (active : List String) (name : String)
    (p : Position) : Confined (inlineAt ignoreCase table bound active name p) := by
  induction bound generalizing active name p with
  | zero => exact confined_refuse p _
  | succ bound ih =>
      unfold inlineAt
      split
      · exact confined_refuse p _
      · split
        · exact confined_refuse p _
        · refine confined_alternation fun e he => ?_
          obtain ⟨items, _, rfl⟩ := List.mem_map.mp he
          exact confined_sequence (emitters_confined (ih (name :: active)) items)

/-- Alternatives are counted from a number; the last of them ends with its report. -/
theorem inRange_ruleEmitter {index : Nat} (h : ∀ e ∈ es, Confined e)
    (hc : ruleEmitter index es pc = .ok c) : ∀ i ∈ c.instructions,
      LexerProgram.inRange (pc + c.size) (index + es.length) i = true := by
  induction es generalizing index pc c with
  | nil =>
      cases hc
      exact fun i hi => absurd hi List.not_mem_nil
  | cons e rest ih =>
      have he := h e List.mem_cons_self
      have haccept (size : Nat) : ∀ i ∈ (accept index).instructions,
          LexerProgram.inRange size (index + (e :: rest).length) i = true := by
        intro i hi
        rw [List.mem_singleton.mp hi]
        have hle := toNat_ofNat_le index
        have hlt : (UInt32.ofNat index).toNat < index + (e :: rest).length := by
          rw [List.length_cons]
          omega
        exact decide_eq_true hlt
      cases rest with
      | nil =>
          obtain ⟨body, hbody, rfl⟩ := ruleEmitter_singleton_eq_ok.mp hc
          intro i hi
          rw [Code.size_append, size_accept]
          rw [Code.instructions_append] at hi
          rcases List.mem_append.mp hi with hi | hi
          · exact (he _ body hbody i hi).inRange (by omega)
          · exact haccept _ i hi
      | cons e' rest =>
          obtain ⟨first, hfirst, next, hnext, others, hothers, rfl⟩ :=
            ruleEmitter_cons_eq_ok.mp hc
          have hrest := ih (fun d hd => h d (List.mem_cons_of_mem e hd)) hothers
          have hpos : 0 < others.size := ruleEmitter_size_pos hothers
          intro i hi
          simp only [Code.size_append, size_split, size_accept, ← Nat.add_assoc, ← hnext]
          simp only [Code.instructions_append, List.mem_append, or_assoc] at hi
          rcases hi with hi | hi | hi | hi
          · have hsplit : (split (pc + 1) next).Stays next := stays_split (by omega) le_rfl
            exact (hsplit i hi).inRange (by omega)
          · exact (he _ first hfirst i hi).inRange (by omega)
          · exact haccept _ i hi
          · have hothersIn := hrest i hi
            rwa [Nat.add_assoc, Nat.add_comm 1] at hothersIn

/-- The program of a rule is taken over as it is. -/
theorem inRange_compileRule {table : Table} {name : String} {alternatives : List (List UnitExpr)}
    (h : compileRule ignoreCase table name alternatives = .ok c) : ∀ i ∈ c.instructions,
      LexerProgram.inRange c.instructions.length alternatives.length i = true := by
  have hconfined : ∀ e ∈ alternatives.map fun items =>
      sequence (emitters ignoreCase (inlineAt ignoreCase table (table.length + 1) [name]) items),
      Confined e := by
    intro e he
    obtain ⟨items, _, rfl⟩ := List.mem_map.mp he
    exact confined_sequence (emitters_confined (inlineAt_confined _ _) items)
  have hrange := inRange_ruleEmitter hconfined h
  rwa [Nat.zero_add, Nat.zero_add, List.length_map] at hrange

end GrammarEngine.Automaton
