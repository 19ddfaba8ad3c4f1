import GrammarEngine.Lexer.Tokenize
import GrammarEngine.Proofs.Checked
import GrammarEngine.Proofs.Lexer.Threads

/-!
# Which match is found

A match of a text is an end and an alternative. The searches find the last end, or the first one
that is not empty, and with it the least alternative that is reported there. Both walk over the text
once: the ends of threads are where they stand, and the ends of the threads that a character leaves.

A match that wins is not empty and ends inside the text. Its alternative is one that the code of its
rule accepts, and rules are taken over only if each such alternative has its actions.
-/
namespace GrammarEngine.LexerCode

/-- The outcome of looking for the last end, and there for the least alternative. -/
def Latest (P : Nat → Nat → Prop) : Option Match → Prop
  | none => ∀ e a, ¬P e a
  | some m => IsGreatest {e | ∃ a, P e a} m.length ∧ IsLeast {a | P m.length a} m.alternative

/-- The outcome of looking for the first end, and there for the least alternative. -/
def Earliest (P : Nat → Nat → Prop) : Option Match → Prop
  | none => ∀ e a, ¬P e a
  | some m => IsLeast {e | ∃ a, P e a} m.length ∧ IsLeast {a | P m.length a} m.alternative

/-- The outcome of looking for the first end that is not empty. The empty match is left where there
is no other. -/
def Shortest (P : Nat → Nat → Prop) : Option Match → Prop
  | none => ∀ e a, ¬P e a
  | some m =>
    (IsLeast {e | 0 < e ∧ ∃ a, P e a} m.length ∨ m.length = 0 ∧ ∀ e a, P e a → e = 0) ∧
      IsLeast {a | P m.length a} m.alternative

variable {P Q : Nat → Nat → Prop}

/-- The alternatives at an end that is none of the others. -/
theorem isLeast_or_left {e b : Nat} (h : IsLeast {a | P e a} b) (hQ : ∀ a, ¬Q e a) :
    IsLeast {a | P e a ∨ Q e a} b := by
  refine ⟨.inl h.1, fun a ha => ?_⟩
  obtain ha | ha := ha
  · exact h.2 ha
  · exact absurd ha (hQ a)

theorem isLeast_or_right {e b : Nat} (h : IsLeast {a | Q e a} b) (hP : ∀ a, ¬P e a) :
    IsLeast {a | P e a ∨ Q e a} b := by
  refine ⟨.inr h.1, fun a ha => ?_⟩
  obtain ha | ha := ha
  · exact absurd ha (hP a)
  · exact h.2 ha

/-- A later end is preferred. -/
theorem Latest.or {later here : Option Match} (hlater : Latest Q later) (hhere : Latest P here)
    (hlt : ∀ e a e' a', P e a → Q e' a' → e < e') :
    Latest (fun e a => P e a ∨ Q e a) (later.or here) := by
  cases later with
  | some m =>
      obtain ⟨⟨⟨b, hb⟩, hmax⟩, hleast⟩ := hlater
      refine ⟨⟨⟨b, .inr hb⟩, ?_⟩, isLeast_or_right hleast fun a ha => ?_⟩
      · rintro e ⟨a, ha | ha⟩
        · exact (hlt e a m.length b ha hb).le
        · exact hmax ⟨a, ha⟩
      · exact absurd (hlt m.length a m.length b ha hb) (lt_irrefl m.length)
  | none =>
      have hP : (fun e a => P e a ∨ Q e a) = P := by
        ext e a
        exact or_iff_left (hlater e a)
      rw [Option.none_or, hP]
      exact hhere

/-- An earlier end is preferred. -/
theorem Earliest.or {here later : Option Match} (hhere : Earliest P here)
    (hlater : Earliest Q later) (hlt : ∀ e a e' a', P e a → Q e' a' → e < e') :
    Earliest (fun e a => P e a ∨ Q e a) (here.or later) := by
  cases here with
  | some m =>
      obtain ⟨⟨⟨b, hb⟩, hmin⟩, hleast⟩ := hhere
      refine ⟨⟨⟨b, .inl hb⟩, ?_⟩, isLeast_or_left hleast fun a ha => ?_⟩
      · rintro e ⟨a, ha | ha⟩
        · exact hmin ⟨a, ha⟩
        · exact (hlt m.length b e a hb ha).le
      · exact absurd (hlt m.length b m.length a hb ha) (lt_irrefl m.length)
  | none =>
      have hQ : (fun e a => P e a ∨ Q e a) = Q := by
        ext e a
        exact or_iff_right (hhere e a)
      rw [Option.none_or, hQ]
      exact hlater

/-- The first of the ends that are not empty is preferred to the empty one. -/
theorem Shortest.or {later here : Option Match} (hlater : Earliest Q later)
    (hhere : Earliest P here) (hP : ∀ e a, P e a → e = 0) (hQ : ∀ e a, Q e a → 0 < e) :
    Shortest (fun e a => P e a ∨ Q e a) (later.or here) := by
  cases later with
  | some m =>
      obtain ⟨⟨⟨b, hb⟩, hmin⟩, hleast⟩ := hlater
      refine ⟨.inl ⟨⟨hQ m.length b hb, b, .inr hb⟩, ?_⟩, isLeast_or_right hleast fun a ha => ?_⟩
      · rintro e ⟨he, a, ha | ha⟩
        · exact absurd (hP e a ha) he.ne'
        · exact hmin ⟨a, ha⟩
      · exact absurd (hP m.length a ha) (hQ m.length b hb).ne'
  | none =>
      rw [Option.none_or]
      have hnone : ∀ e a, ¬Q e a := hlater
      cases here with
      | none =>
          intro e a ha
          exact ha.elim (hhere e a) (hnone e a)
      | some m =>
          obtain ⟨⟨⟨b, hb⟩, -⟩, hleast⟩ := hhere
          have hempty : ∀ e a, P e a ∨ Q e a → e = 0 := fun e a ha =>
            ha.elim (hP e a) fun ha => absurd ha (hnone e a)
          exact ⟨.inr ⟨hP m.length b hb, hempty⟩, isLeast_or_left hleast (hnone m.length)⟩

variable {code : LexerCode} {see : Char → Char}

/-- The ends of a text to which threads go on, counted from a number, with what they report. -/
def Ends (code : LexerCode) (see : Char → Char) (threads : List Nat) (n : Nat) (text : List Char)
    (e a : Nat) : Prop :=
  ∃ u v, text = u ++ v ∧ e = n + u.length ∧ Awaits code threads (u.map see) a

/-- The end where threads stand. -/
def Here (code : LexerCode) (threads : List Nat) (n e a : Nat) : Prop :=
  e = n ∧ Awaits code threads [] a

theorem Ends.le {threads : List Nat} {n e a : Nat} {text : List Char}
    (h : Ends code see threads n text e a) : n ≤ e := by
  obtain ⟨u, v, -, rfl, -⟩ := h
  exact Nat.le_add_right n u.length

theorem not_ends_of_no_threads {n e a : Nat} {text : List Char} :
    ¬Ends code see [] n text e a := by
  rintro ⟨u, v, -, -, pc, hpc, -⟩
  exact List.not_mem_nil hpc

theorem ends_nil {threads : List Nat} {n : Nat} :
    Ends code see threads n [] = Here code threads n := by
  ext e a
  constructor
  · rintro ⟨u, v, htext, rfl, hawaits⟩
    obtain ⟨rfl, -⟩ := List.append_eq_nil_iff.mp htext.symm
    exact ⟨rfl, hawaits⟩
  · rintro ⟨rfl, hawaits⟩
    exact ⟨[], [], rfl, rfl, hawaits⟩

theorem ends_cons {threads : List Nat} (h : Closed code threads) {n : Nat} {c : Char}
    {rest : List Char} : Ends code see threads n (c :: rest) = fun e a =>
      Here code threads n e a ∨ Ends code see (step code (see c) threads) (n + 1) rest e a := by
  ext e a
  constructor
  · rintro ⟨u, v, htext, rfl, hawaits⟩
    cases u with
    | nil => exact .inl ⟨rfl, hawaits⟩
    | cons d u =>
        obtain ⟨rfl, rfl⟩ := List.cons.inj htext
        refine .inr ⟨u, v, rfl, ?_, (awaits_step h (see c) (u.map see) a).mpr hawaits⟩
        rw [List.length_cons]
        omega
  · rintro (⟨rfl, hawaits⟩ | ⟨u, v, rfl, rfl, hawaits⟩)
    · exact ⟨[], c :: rest, rfl, rfl, hawaits⟩
    · refine ⟨c :: u, v, rfl, ?_, (awaits_step h (see c) (u.map see) a).mp hawaits⟩
      rw [List.length_cons]
      omega

theorem here_lt {threads later : List Nat} {n : Nat} {rest : List Char} (e a e' a' : Nat)
    (h : Here code threads n e a) (h' : Ends code see later (n + 1) rest e' a') : e < e' := by
  obtain ⟨rfl, -⟩ := h
  exact h'.le

theorem here?_earliest {threads : List Nat} (h : Closed code threads) (n : Nat) :
    Earliest (Here code threads n) (here? code threads n) := by
  rw [here?]
  cases ha : accepts? code threads with
  | none =>
      rintro e a ⟨-, hawaits⟩
      exact (accepts?_eq_none_iff h).mp ha a hawaits
  | some b =>
      have hleast := isLeast_of_accepts? h ha
      refine ⟨⟨⟨b, rfl, hleast.1⟩, ?_⟩, ⟨rfl, hleast.1⟩, fun a ha => hleast.2 ha.2⟩
      rintro e ⟨a, rfl, -⟩
      exact le_rfl

theorem here?_latest {threads : List Nat} (h : Closed code threads) (n : Nat) :
    Latest (Here code threads n) (here? code threads n) := by
  have hearliest := here?_earliest h n
  cases hm : here? code threads n with
  | none =>
      rw [hm] at hearliest
      exact hearliest
  | some m =>
      rw [hm] at hearliest
      obtain ⟨⟨⟨b, hb⟩, -⟩, hleast⟩ := hearliest
      refine ⟨⟨⟨b, hb⟩, ?_⟩, hleast⟩
      rintro e ⟨a, rfl, -⟩
      exact hb.1.ge

theorem longest?_latest {threads : List Nat} (h : Closed code threads) (n : Nat)
    (text : List Char) :
    Latest (Ends code see threads n text) (longest? code see threads n text) := by
  induction text generalizing threads n with
  | nil =>
      cases threads with
      | nil => exact fun e a => not_ends_of_no_threads
      | cons pc threads =>
          rw [ends_nil]
          exact here?_latest h n
  | cons c rest ih =>
      cases threads with
      | nil => exact fun e a => not_ends_of_no_threads
      | cons pc threads =>
          have hlater := ih (step_closed (see c) (pc :: threads)) (n + 1)
          rw [ends_cons h]
          exact hlater.or (here?_latest h n) here_lt

theorem first?_earliest {threads : List Nat} (h : Closed code threads) (n : Nat)
    (text : List Char) :
    Earliest (Ends code see threads n text) (first? code see threads n text) := by
  induction text generalizing threads n with
  | nil =>
      cases threads with
      | nil => exact fun e a => not_ends_of_no_threads
      | cons pc threads =>
          rw [ends_nil]
          exact here?_earliest h n
  | cons c rest ih =>
      cases threads with
      | nil => exact fun e a => not_ends_of_no_threads
      | cons pc threads =>
          have hlater := ih (step_closed (see c) (pc :: threads)) (n + 1)
          rw [ends_cons h]
          exact (here?_earliest h n).or hlater here_lt

theorem shortest?_shortest (text : List Char) :
    Shortest (Ends code see (start code) 0 text) (shortest? code see text) := by
  have hstart : Closed code (start code) := start_closed
  have hhere := here?_earliest hstart 0
  cases text with
  | nil =>
      have hnone : Earliest (fun _ _ : Nat => False) none := fun e a => not_false
      have hor := Shortest.or hnone hhere (fun e a ha => ha.1) fun e a ha => ha.elim
      simp only [or_false] at hor
      rw [ends_nil]
      exact hor
  | cons c rest =>
      have hstep : Closed code (step code (see c) (start code)) := step_closed _ _
      have hlater : Earliest (Ends code see _ 1 rest) _ := first?_earliest hstep 1 rest
      rw [ends_cons hstart]
      exact Shortest.or hlater hhere (fun e a ha => ha.1) fun e a ha => ha.le

end GrammarEngine.LexerCode

/-! ## Winning matches -/
namespace GrammarEngine

namespace LexerCode

variable {code : LexerCode}

/-- A path ends at an instruction that accepts its alternative. -/
theorem Accepts.exists_accept {n pc a : Nat} {w : List Char} (h : Accepts code n pc w a) :
    ∃ alternative : UInt32, .accept alternative ∈ code ∧ alternative.toNat = a := by
  induction h with
  | stop hi => exact ⟨_, Array.mem_of_getElem? hi, rfl⟩
  | hop _ _ _ ih => exact ih
  | read _ _ _ ih => exact ih

theorem Ends.stop_le {see : Char → Char} {threads : List Nat} {n e a : Nat} {text : List Char}
    (h : Ends code see threads n text e a) : e ≤ n + text.length := by
  obtain ⟨u, v, rfl, rfl, -⟩ := h
  rw [List.length_append]
  omega

end LexerCode

open LexerCode

/-- What a rule matches is an end of the text with an alternative that the code reports there. -/
theorem LexerRule.ends_of_match? {r : LexerRule} {see : Char → Char} {text : List Char} {m : Match}
    (h : r.match? see text = some m) :
    Ends r.code see (start r.code) 0 text m.length m.alternative := by
  unfold LexerRule.match? at h
  split at h
  · have hshortest : Shortest (Ends r.code see (start r.code) 0 text)
        (shortest? r.code see text) := shortest?_shortest text
    rw [h] at hshortest
    exact hshortest.2.1
  · have hlatest : Latest (Ends r.code see (start r.code) 0 text)
        (longest? r.code see (start r.code) 0 text) := longest?_latest start_closed 0 text
    rw [h] at hlatest
    exact hlatest.2.1

namespace LexerProgram

/-! ## Winners -/

/-- A winner is a match of a rule, and it is not empty. -/
structure Winner.Matches (rules : List LexerRule) (see : Char → Char) (text : List Char)
    (w : Winner) : Prop where
  rule : w.rule ∈ rules
  found : w.rule.match? see text = some ⟨w.length, w.alternative⟩
  pos : 0 < w.length

variable {rules : List LexerRule} {see : Char → Char} {text : List Char} {w : Winner}
  {best : Option Winner}

theorem Winner.Matches.length_le (h : w.Matches rules see text) : w.length ≤ text.length := by
  have hle := (LexerRule.ends_of_match? h.found).stop_le
  rwa [Nat.zero_add] at hle

/-- A rule that takes over has a match of its own, and it is not empty. -/
theorem matches_of_contend {r : LexerRule} (hr : r ∈ rules)
    (hbest : ∀ v, best = some v → v.Matches rules see text)
    (h : contend see text best r = some w) : w.Matches rules see text := by
  unfold contend at h
  split at h
  · exact hbest w h
  · next m hm =>
    split at h
    · next hlonger =>
      obtain rfl := Option.some.inj h
      exact ⟨hr, hm, Nat.lt_of_le_of_lt (Nat.zero_le _) hlonger⟩
    · exact hbest w h

theorem matches_of_foldl {contenders : List LexerRule} (hsub : ∀ r ∈ contenders, r ∈ rules)
    (hbest : ∀ v, best = some v → v.Matches rules see text)
    (h : contenders.foldl (contend see text) best = some w) : w.Matches rules see text := by
  induction contenders generalizing best with
  | nil => exact hbest w h
  | cons r rest ih =>
      refine ih (fun q hq => hsub q (List.mem_cons_of_mem r hq)) (fun v hv => ?_) h
      exact matches_of_contend (hsub r List.mem_cons_self) hbest hv

theorem matches_of_winner? {p : LexerProgram} {mode : UInt32}
    (h : p.winner? see mode text = some w) : w.Matches p.rules see text := by
  refine matches_of_foldl (fun r hr => (List.mem_filter.mp hr).1) (fun v hv => ?_) h
  cases hv

/-! ## Actions -/

/-- Every alternative that the code of a rule accepts has its actions. -/
def Supplied (r : LexerRule) : Prop :=
  ∀ alternative : UInt32, .accept alternative ∈ r.code → alternative.toNat < r.actions.size

theorem supplied_of_loadRule {header : LexerHeader} {image : LexerRuleImage} {r : LexerRule}
    (h : loadRule header image = .ok r) : Supplied r := by
  unfold loadRule at h
  split at h
  · cases h
  · next hsound =>
    obtain rfl := Except.ok.inj h
    intro alternative hmem
    have hprogram : Instruction.accept alternative ∈ image.program := by simpa using hmem
    simp only [corruption?] at hsound
    split at hsound
    · split at hsound
      · cases hsound
      · next hnone =>
        have hrange := List.find?_eq_none.mp hnone _ hprogram
        simpa [inRange] using hrange
    · cases hsound

theorem supplied_of_ofImages {header : LexerHeader} {images : List LexerRuleImage}
    {p : LexerProgram} (h : ofImages header images = .ok p) : ∀ r ∈ p.rules, Supplied r := by
  unfold ofImages at h
  obtain ⟨rules, hrules, h⟩ := bind_eq_ok.mp h
  obtain rfl := Except.ok.inj h
  intro r hr
  obtain ⟨image, -, himage⟩ := exists_of_mem_right (mapM_eq_ok.mp hrules) hr
  exact supplied_of_loadRule himage

/-- The actions of a winner are there. -/
theorem exists_actions (h : w.Matches rules see text) (hsupplied : ∀ r ∈ rules, Supplied r) :
    ∃ actions, w.rule.actions[w.alternative]? = some actions := by
  obtain ⟨u, v, -, -, pc, -, n, hpath⟩ := LexerRule.ends_of_match? h.found
  obtain ⟨alternative, hmem, halternative⟩ := hpath.exists_accept
  have hlt : alternative.toNat < w.rule.actions.size := hsupplied w.rule h.rule alternative hmem
  rw [halternative] at hlt
  exact ⟨_, Array.getElem?_eq_getElem hlt⟩

end LexerProgram

end GrammarEngine
