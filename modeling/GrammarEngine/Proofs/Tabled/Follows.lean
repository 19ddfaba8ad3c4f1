import GrammarEngine.Proofs.Parser.Memory
import GrammarEngine.Proofs.Tabled.Machine
import Mathlib.Data.Finset.Card
import Mathlib.Data.Finset.Filter

/-!
# Runs that follow searches

A run over a table follows a search if both come to the same end from states that correspond: the
run has an answer where the search has one, and it names the rule that nested too deep where the
search does. Tables only grow, so what a row stands for once it stands for ever.

A search that stops because rules nest too deep has remembered one invocation after another on the
way down. The relation keeps account of it: such a search had at least as many invocations left to
remember, among those that it can make at all, as there are levels below it.
-/
namespace GrammarEngine.Tabled

variable {α β γ δ : Type} {g : Setting} {input : Array Token} {keys : Finset Invocation}

/-! ## Tables -/

/-- A table with more rows behind those of another one. -/
def Extends (small large : Table) : Prop := small.toList <+: large.toList

theorem Extends.refl (t : Table) : Extends t t := List.prefix_rfl

theorem Extends.trans {t u v : Table} (htu : Extends t u) (huv : Extends u v) : Extends t v :=
  List.IsPrefix.trans htu huv

theorem Extends.push (t : Table) (r : TableRow) : Extends t (t.push r) := by
  rw [Extends, Array.toList_push]
  exact List.prefix_append _ _

theorem Extends.getElem? {t u : Table} (h : Extends t u) {row : Nat} {r : TableRow}
    (hr : t[row]? = some r) : u[row]? = some r := by
  obtain ⟨rest, hrest⟩ := h
  rw [← Array.getElem?_toList] at hr ⊢
  rw [← hrest, List.getElem?_append_left (List.getElem?_eq_some_iff.mp hr).1, hr]

mutual
/-- A part of a match stands for a derivation, as far as the places of its rules are concerned. -/
inductive Denotes (input : Array Token) (table : Table) : Part → Derivation → Prop
  | token {place : Nat} {t : Token} : input[place]? = some t →
      Denotes input table (.token t.index) (.token place)
  | rule {row stop : Nat} {call : Invocation} (suffix : Option UInt32) {parts : List Part}
      {ds : List Derivation} : table[row]? = some ⟨call.rule, call.start, stop, parts⟩ →
      stop ≤ input.size → DenotesAll input table parts ds →
      Denotes input table (.rule row) (.rule call suffix stop ds)

inductive DenotesAll (input : Array Token) (table : Table) : List Part → List Derivation → Prop
  | nil : DenotesAll input table [] []
  | cons {p : Part} {ps : List Part} {d : Derivation} {ds : List Derivation} :
      Denotes input table p d → DenotesAll input table ps ds →
      DenotesAll input table (p :: ps) (d :: ds)
end

variable {table table' : Table}

mutual
theorem Denotes.mono (hext : Extends table table') : ∀ {p : Part} {d : Derivation},
    Denotes input table p d → Denotes input table' p d
  | _, _, .token h => .token h
  | _, _, .rule suffix hrow hstop hparts =>
      .rule suffix (hext.getElem? hrow) hstop (hparts.mono hext)

theorem DenotesAll.mono (hext : Extends table table') : ∀ {ps : List Part} {ds : List Derivation},
    DenotesAll input table ps ds → DenotesAll input table' ps ds
  | _, _, .nil => .nil
  | _, _, .cons hp hps => .cons (hp.mono hext) (hps.mono hext)
end

theorem DenotesAll.append {ps qs : List Part} {ds es : List Derivation}
    (h : DenotesAll input table ps ds) (h' : DenotesAll input table qs es) :
    DenotesAll input table (ps ++ qs) (ds ++ es) := by
  induction ps generalizing ds with
  | nil =>
      cases h
      exact h'
  | cons p ps ih =>
      cases h with
      | cons hp hps => exact .cons hp (ih hps)

/-! ## Branches and states -/

/-- Branches that end at the same place of the input, with values that correspond. -/
structure SameEnd (size : Nat) (V : α → β → Prop) (b : Branch α) (c : Branch β) : Prop where
  stop : b.stop = c.stop
  le : c.stop ≤ size
  value : V b.value c.value

/-- Parts in a row and the derivations in a row that they stand for. -/
abbrev SameParts (input : Array Token) (table : Table) (r : Rope Part) (r' : Rope Derivation) :
    Prop :=
  DenotesAll input table r.toList r'.toList

abbrev Lines (input : Array Token) (table : Table) : List Line → List Row → Prop :=
  List.Forall₂ (SameEnd input.size (SameParts input table))

/-- A row of the table and the match that it stands for. -/
abbrev SameMatch (input : Array Token) (table : Table) (row : Nat) (d : Derivation) : Prop :=
  Denotes input table (.rule row) d

abbrev Matches (input : Array Token) (table : Table) :
    List (Branch Nat) → List (Branch Derivation) → Prop :=
  List.Forall₂ (SameEnd input.size (SameMatch input table))

/-- What is said of answers stays true when the table grows. -/
def Lasting (Q : Table → α → β → Prop) : Prop :=
  ∀ ⦃t u : Table⦄, Extends t u → ∀ ⦃a b⦄, Q t a b → Q u a b

theorem Lasting.sameEnd {V : Table → α → β → Prop} (hV : Lasting V) (size : Nat) :
    Lasting fun t => SameEnd size (V t) :=
  fun _ _ hext _ _ h => ⟨h.stop, h.le, hV hext h.value⟩

theorem Lasting.forall₂ {V : Table → α → β → Prop} (hV : Lasting V) :
    Lasting fun t => List.Forall₂ (V t) :=
  fun _ _ hext _ _ h => h.imp fun _ _ hab => hV hext hab

theorem lasting_sameParts : Lasting (SameParts input) := fun _ _ hext _ _ h => h.mono hext

theorem lasting_sameMatch : Lasting (SameMatch input) := fun _ _ hext _ _ h => h.mono hext

theorem lasting_lines : Lasting (Lines input) := (lasting_sameParts.sameEnd _).forall₂

theorem lasting_matches : Lasting (Matches input) := (lasting_sameMatch.sameEnd _).forall₂

/-- A state of a run and the state of a search to which it corresponds. -/
structure Related (input : Array Token) (s : State) (t : SearchState) : Prop where
  furthest : s.furthest = t.furthest
  expected : s.expected = t.expected
  known : ∀ (i : Invocation) found, t.memo[i]? = some found →
    ∃ rows, s.memo[i]? = some rows ∧ Matches input s.table rows found
  unknown : ∀ i : Invocation, t.memo[i]? = none → s.memo[i]? = none

variable {s : State} {t : SearchState}

theorem related_empty : Related input {} {} := ⟨rfl, rfl, by simp, by simp⟩

theorem Related.refuse (h : Related input s t) (place : Nat) (expected : Option TokenType) :
    Related input (s.refuse place expected) (t.refuse place expected) := by
  obtain ⟨memo, rows, furthest, expected₁⟩ := s
  obtain ⟨rfl, rfl, hknown, hunknown⟩ := h
  cases expected with
  | none =>
      simp only [State.refuse, SearchState.refuse]
      split <;> exact ⟨rfl, rfl, hknown, hunknown⟩
  | some type =>
      simp only [State.refuse, SearchState.refuse]
      split <;> split <;> exact ⟨rfl, rfl, hknown, hunknown⟩

theorem State.table_refuse (s : State) (place : Nat) (expected : Option TokenType) :
    (s.refuse place expected).table = s.table := by
  cases expected with
  | none =>
      simp only [State.refuse]
      split <;> rfl
  | some type =>
      simp only [State.refuse]
      split <;> split <;> rfl

theorem Related.remember (h : Related input s t) (i : Invocation) {rows : List (Branch Nat)}
    {found : List (Branch Derivation)} (hfound : Matches input s.table rows found) :
    Related input (s.remember i rows) (t.remember i found) where
  furthest := h.furthest
  expected := h.expected
  known k known hk := by
    simp only [SearchState.remember, State.remember, Std.HashMap.getElem?_insert] at hk ⊢
    split at hk
    · next he =>
      obtain rfl := Option.some.inj hk
      exact ⟨rows, if_pos he, hfound⟩
    · next hne => simpa only [if_neg hne] using h.known k known hk
  unknown k hk := by
    simp only [SearchState.remember, State.remember, Std.HashMap.getElem?_insert] at hk ⊢
    split at hk
    · cases hk
    · next hne => simpa only [if_neg hne] using h.unknown k hk

theorem Related.addRow (h : Related input s t) (r : TableRow) :
    Related input { s with table := s.table.push r } t where
  furthest := h.furthest
  expected := h.expected
  known i found hfound := by
    obtain ⟨rows, hrows, hmatches⟩ := h.known i found hfound
    exact ⟨rows, hrows, lasting_matches (Extends.push s.table r) hmatches⟩
  unknown := h.unknown

/-! ## Invocations left to remember -/

/-- How many invocations there are that have not been remembered yet. -/
def room (keys : Finset Invocation) (t : SearchState) : Nat :=
  (keys.filter fun i => i ∉ t.memo).card

theorem room_refuse (t : SearchState) (place : Nat) (expected : Option TokenType) :
    room keys (t.refuse place expected) = room keys t := by
  rw [room, Parser.memo_refuse, room]

theorem room_remember_le (t : SearchState) (i : Invocation) (found : List (Branch Derivation)) :
    room keys (t.remember i found) ≤ room keys t := by
  refine Finset.card_le_card fun k hk => ?_
  simp only [Finset.mem_filter, SearchState.remember, Std.HashMap.mem_insert, not_or] at hk ⊢
  exact ⟨hk.1, hk.2.2⟩

/-- An invocation that had not been remembered takes up room. -/
theorem room_remember_lt {i : Invocation} (hi : i ∈ keys) (hnew : i ∉ t.memo)
    (found : List (Branch Derivation)) : room keys (t.remember i found) < room keys t := by
  refine Finset.card_lt_card ⟨fun k hk => ?_, fun hsub => ?_⟩
  · simp only [Finset.mem_filter, SearchState.remember, Std.HashMap.mem_insert, not_or] at hk ⊢
    exact ⟨hk.1, hk.2.2⟩
  · have hmem := hsub (Finset.mem_filter.mpr ⟨hi, hnew⟩)
    simp [SearchState.remember] at hmem

/-! ## The relation -/

/-- From corresponding states over a table that extends the given one, a run comes to the end to
which a search comes. Answers correspond, and if rules nest too deep, then at least as many
invocations as the given depth had not been remembered. -/
structure Follows (g : Setting) (input : Array Token) (keys : Finset Invocation) (depth : Nat)
    (table : Table) (x : Run α) (y : Search β) (Q : Table → α → β → Prop) : Prop where
  answers : ∀ s t, Related input s t → Extends table s.table → ∀ b t', y.run t = .ok (b, t') →
    ∃ a s', (x.run s).run = some (.ok (a, s')) ∧ Related input s' t' ∧
      Extends s.table s'.table ∧ room keys t' ≤ room keys t ∧ Q s'.table a b
  fails : ∀ s t, Related input s t → Extends table s.table → ∀ e, y.run t = .error e →
    depth ≤ room keys t ∧
      ∃ name, g.names[e.rule.toNat]? = some name ∧ (x.run s).run = some (.error name)

variable {depth : Nat} {x : Run α} {y : Search β} {P Q : Table → α → β → Prop}

theorem run_bind_of_ok {f : α → Run β} {a : α} {s' : State}
    (h : (x.run s).run = some (.ok (a, s'))) :
    ((x >>= f).run s).run = ((f a).run s').run := by
  have hx : x s = (some (.ok (a, s')) : Option (Except String (α × State))) := h
  simp only [bind, StateT.bind, StateT.run, ExceptT.bind, ExceptT.run, ExceptT.mk, hx]
  rfl

theorem run_bind_of_error {f : α → Run β} {name : String} (h : (x.run s).run = some (.error name)) :
    ((x >>= f).run s).run = some (.error name) := by
  have hx : x s = (some (.error name) : Option (Except String (α × State))) := h
  simp only [bind, StateT.bind, StateT.run, ExceptT.bind, ExceptT.run, ExceptT.mk, hx]
  rfl

namespace Follows

theorem pure {a : α} {b : β} (h : ∀ u, Extends table u → Q u a b) :
    Follows g input keys depth table (Pure.pure a) (Pure.pure b) Q where
  answers s t hst hext c t' hrun := by
    obtain ⟨rfl, rfl⟩ : b = c ∧ t = t' := Prod.mk.inj (Except.ok.inj hrun)
    exact ⟨a, s, rfl, hst, .refl _, Nat.le_refl _, h _ hext⟩
  fails s t _ _ e hrun := by cases hrun

theorem mono (hx : Follows g input keys depth table x y P)
    (h : ∀ u a b, Extends table u → P u a b → Q u a b) :
    Follows g input keys depth table x y Q where
  answers s t hst hext b t' hrun := by
    obtain ⟨a, s', hrun', hst', hext', hroom, ha⟩ := hx.answers s t hst hext b t' hrun
    exact ⟨a, s', hrun', hst', hext', hroom, h _ _ _ (hext.trans hext') ha⟩
  fails := hx.fails

/-- An answer that the search has at once is the only one. -/
theorem of_pure {b : β} (hx : Follows g input keys depth table x (Pure.pure b) Q) :
    Follows g input keys depth table x (Pure.pure b) fun u a c => c = b ∧ Q u a c where
  answers s t hst hext c t' hrun := by
    obtain ⟨a, s', hrun', hst', hext', hroom, ha⟩ := hx.answers s t hst hext c t' hrun
    exact ⟨a, s', hrun', hst', hext', hroom, (Prod.mk.inj (Except.ok.inj hrun)).1.symm, ha⟩
  fails := hx.fails

theorem bind {f : α → Run γ} {h : β → Search δ} {R : Table → γ → δ → Prop}
    (hx : Follows g input keys depth table x y P)
    (hf : ∀ u a b, Extends table u → P u a b → Follows g input keys depth u (f a) (h b) R) :
    Follows g input keys depth table (x >>= f) (y >>= h) R where
  answers s t hst hext d t'' hrun := by
    rw [StateT.run_bind] at hrun
    obtain ⟨r, hy, hrun⟩ := bind_eq_ok.mp hrun
    obtain ⟨a, s', hx', hst', hext', hroom, ha⟩ := hx.answers s t hst hext r.1 r.2 hy
    obtain ⟨c, s'', hf', hst'', hext'', hroom', hc⟩ :=
      (hf s'.table a r.1 (hext.trans hext') ha).answers s' r.2 hst' (.refl _) d t'' hrun
    exact ⟨c, s'', (run_bind_of_ok hx').trans hf', hst'', hext'.trans hext'',
      Nat.le_trans hroom' hroom, hc⟩
  fails s t hst hext e hrun := by
    rw [StateT.run_bind] at hrun
    cases hy : y.run t with
    | error e' =>
        rw [hy] at hrun
        obtain rfl : e' = e := Except.error.inj hrun
        obtain ⟨hroom, name, hname, hx'⟩ := hx.fails s t hst hext e' hy
        exact ⟨hroom, name, hname, run_bind_of_error hx'⟩
    | ok r =>
        rw [hy] at hrun
        obtain ⟨a, s', hx', hst', hext', hroom, ha⟩ := hx.answers s t hst hext r.1 r.2 hy
        obtain ⟨hroom', name, hname, hf'⟩ :=
          (hf s'.table a r.1 (hext.trans hext') ha).fails s' r.2 hst' (.refl _) e hrun
        exact ⟨Nat.le_trans hroom' hroom, name, hname, (run_bind_of_ok hx').trans hf'⟩

theorem map {f : α → γ} {h : β → δ} {R : Table → γ → δ → Prop}
    (hx : Follows g input keys depth table x y P)
    (hf : ∀ u a b, P u a b → R u (f a) (h b)) (hR : Lasting R) :
    Follows g input keys depth table (x >>= fun a => Pure.pure (f a))
      (y >>= fun b => Pure.pure (h b)) R :=
  hx.bind fun u a b _ hab => .pure fun _ hext => hR hext (hf u a b hab)

theorem mapM {f : γ → Run α} {h : δ → Search β} {cs : List γ} {ds : List δ} (hQ : Lasting Q)
    (hcs : List.Forall₂ (fun c d => ∀ u, Extends table u →
      Follows g input keys depth u (f c) (h d) Q) cs ds) :
    Follows g input keys depth table (cs.mapM f) (ds.mapM h) fun u => List.Forall₂ (Q u) := by
  suffices h : ∀ u, Extends table u →
      Follows g input keys depth u (cs.mapM f) (ds.mapM h) fun u => List.Forall₂ (Q u) from
    h table (.refl table)
  induction hcs with
  | nil =>
      intro u _
      rw [List.mapM_nil, List.mapM_nil]
      exact .pure fun _ _ => .nil
  | cons hcd _ ih =>
      intro u hu
      rw [List.mapM_cons, List.mapM_cons]
      refine (hcd u hu).bind fun v a b hv hab => ?_
      refine (ih v (hu.trans hv)).bind fun w as bs hw hrest => .pure fun z hz => ?_
      exact .cons (hQ (hw.trans hz) hab) (hQ.forall₂ hz hrest)

theorem foldlM {R : Table → α → β → Prop} {f : α → γ → Run α} {h : β → δ → Search β}
    {cs : List γ} {ds : List δ} {a : α} {b : β} (hR : Lasting R)
    (hcs : List.Forall₂ (fun c d => ∀ u a b, Extends table u → R u a b →
      Follows g input keys depth u (f a c) (h b d) R) cs ds) (hab : R table a b) :
    Follows g input keys depth table (cs.foldlM f a) (ds.foldlM h b) R := by
  suffices h : ∀ u a b, Extends table u → R u a b →
      Follows g input keys depth u (cs.foldlM f a) (ds.foldlM h b) R from
    h table a b (.refl table) hab
  induction hcs with
  | nil => exact fun u a b _ hab => .pure fun v hv => hR hv hab
  | cons hcd _ ih =>
      intro u a b hu hab
      rw [List.foldlM_cons, List.foldlM_cons]
      exact (hcd u a b hu hab).bind fun v a' b' hv hab' => ih v a' b' (hu.trans hv) hab'

end Follows

end GrammarEngine.Tabled
