import GrammarEngine.Parser.Result
import GrammarEngine.Proofs.Parser.Memory
import GrammarEngine.Proofs.Search.Visit

/-!
# Recognition

The search finds exactly the places up to which an expression or a rule spans the input, each of
them once, and every match that it finds is a derivation over the tokens in between. The proof goes
through the expressions; what they may call at their own place is bounded by `Leads`, so that an
invocation is only ever asked for matches of invocations that it precedes.
-/
namespace GrammarEngine.Parser

open Branch Search

variable {bodies : Array RuleBody} {input : Array Token} {Q : Derivation → Prop} {α : Type}

theorem Spans.nullable {e : ParseExpr} {i : Nat} {ds : List Derivation}
    (h : Spans bodies input (.expr e) i i ds) : Nullable bodies e := by
  obtain ⟨w, hw, hspells⟩ := h.derives
  obtain rfl : w = [] := by
    have := hspells.2
    exact List.length_eq_zero_iff.mp (by omega)
  exact hw

/-- A forest by which a phrase spans two places of the input, each of its trees with a property. -/
def Yields (bodies : Array RuleBody) (input : Array Token) (Q : Derivation → Prop)
    (phrase : Phrase) (i j : Nat) (ds : List Derivation) : Prop :=
  Spans bodies input phrase i j ds ∧ ∀ d ∈ ds, Q d

theorem Yields.imp {phrase phrase' : Phrase} {i j : Nat} {ds : List Derivation}
    (h : Yields bodies input Q phrase i j ds)
    (hspans : Spans bodies input phrase i j ds → Spans bodies input phrase' i j ds) :
    Yields bodies input Q phrase' i j ds := ⟨hspans h.1, h.2⟩

theorem Yields.append {first second phrase : Phrase} {i j k : Nat} {ds ds' : List Derivation}
    (h : Yields bodies input Q first i j ds) (h' : Yields bodies input Q second j k ds')
    (hspans : Spans bodies input first i j ds → Spans bodies input second j k ds' →
      Spans bodies input phrase i k (ds ++ ds')) : Yields bodies input Q phrase i k (ds ++ ds') :=
  ⟨hspans h.1 h'.1, List.forall_mem_append.mpr ⟨h.2, h'.2⟩⟩

/-- Branches that reach each place up to which a phrase spans the input once, by forests of the
phrase whose trees have a property. -/
structure Exact (bodies : Array RuleBody) (input : Array Token) (Q : Derivation → Prop)
    (forest : α → List Derivation) (phrase : Phrase) (place : Nat) (bs : List (Branch α)) :
    Prop where
  nodup : (stops bs).Nodup
  sound : ∀ b ∈ bs, Yields bodies input Q phrase place b.stop (forest b.value)
  complete : ∀ j ds, Spans bodies input phrase place j ds → j ∈ stops bs

/-- Rows that match an expression exactly. -/
abbrev ExactRows (bodies : Array RuleBody) (input : Array Token) (Q : Derivation → Prop)
    (e : ParseExpr) (place : Nat) : List Row → Prop :=
  Exact bodies input Q Rope.toList (.expr e) place

/-- The matches of an invocation are exact. -/
abbrev Recognizes (bodies : Array RuleBody) (input : Array Token) (Q : Derivation → Prop)
    (i : Invocation) : List (Branch Derivation) → Prop :=
  Exact bodies input Q (fun d => [d]) (.rule i.rule i.precedence) i.start

/-- Rows that continue other rows by a phrase in every way, and reach each place once. -/
structure Continues (bodies : Array RuleBody) (input : Array Token) (Q : Derivation → Prop)
    (phrase : Phrase) (rows next : List Row) : Prop where
  nodup : (stops next).Nodup
  sound : ∀ n ∈ next, ∃ r ∈ rows, ∃ ds, n.value.toList = r.value.toList ++ ds ∧
    Yields bodies input Q phrase r.stop n.stop ds
  complete : ∀ r ∈ rows, ∀ j ds, Spans bodies input phrase r.stop j ds → j ∈ stops next

theorem Continues.exact {e : ParseExpr} {phrase : Phrase} {place : Nat} {rows : List Row}
    (h : Continues bodies input Q phrase [Row.empty place] rows)
    (hphrase : ∀ j ds, Spans bodies input (.expr e) place j ds ↔
      Spans bodies input phrase place j ds) :
    ExactRows bodies input Q e place rows := by
  refine ⟨h.nodup, fun n hn => ?_, fun j ds hj => ?_⟩
  · obtain ⟨r, hr, ds, hds, hspans⟩ := h.sound n hn
    obtain rfl := List.mem_singleton.mp hr
    rw [hds]
    exact hspans.imp (hphrase n.stop ds).mpr
  · exact h.complete _ List.mem_cons_self j ds ((hphrase j ds).mp hj)

@[simp] theorem toList_empty_row (place : Nat) : (Row.empty place).value.toList = [] := rfl

@[simp] theorem stop_empty_row (place : Nat) : (Row.empty place).stop = place := rfl

@[simp] theorem toList_then (r n : Row) :
    (r.then n).value.toList = r.value.toList ++ n.value.toList := by
  simp [Row.then]

@[simp] theorem stop_then (r n : Row) : (r.then n).stop = n.stop := rfl

@[simp] theorem stops_map_then (r : Row) (rows : List Row) :
    stops (rows.map r.then) = stops rows := by
  simp [stops, Function.comp_def]

/-! ## Tokens -/

theorem matchToken_exact {I : SearchState → Prop} {e : ParseExpr} {place : Nat}
    {expected : Option TokenType} {accepts : TokenType → Bool}
    (hI : ∀ s place expected, I s → I (s.refuse place expected)) (hQ : ∀ place, Q (.token place))
    (hspans : ∀ j ds, Spans bodies input (.expr e) place j ds ↔
      (∃ t, input[place]? = some t ∧ accepts t.type = true) ∧ j = place + 1 ∧
        ds = [.token place]) :
    Ensures I (matchToken input expected accepts place) (ExactRows bodies input Q e place) := by
  unfold matchToken
  split
  · next hnone =>
    refine .pure ⟨List.nodup_nil, by simp, fun j ds hj => ?_⟩
    obtain ⟨⟨t, ht, -⟩, -⟩ := (hspans j ds).mp hj
    rw [hnone] at ht
    cases ht
  · next t ht =>
    split
    · next haccepts =>
      refine .pure ⟨by simp, fun b hb => ?_, fun j ds hj => ?_⟩
      · obtain rfl := List.mem_singleton.mp hb
        refine ⟨(hspans _ _).mpr ⟨⟨t, ht, haccepts⟩, rfl, rfl⟩, fun d hd => ?_⟩
        obtain rfl : d = .token place := List.mem_singleton.mp hd
        exact hQ place
      · obtain ⟨-, rfl, -⟩ := (hspans j ds).mp hj
        exact List.mem_singleton.mpr rfl
    · next haccepts =>
      refine Ensures.bind (Ensures.modify fun s hs => hI s place expected hs) fun _ _ => ?_
      refine .pure ⟨List.nodup_nil, by simp, fun j ds hj => ?_⟩
      obtain ⟨⟨u, hu, hu'⟩, -⟩ := (hspans j ds).mp hj
      rw [ht] at hu
      cases hu
      exact (haccepts hu').elim

theorem spans_token_iff {t : TokenType} {i j : Nat} {ds : List Derivation} :
    Spans bodies input (.expr (.token t)) i j ds ↔
      (∃ u, input[i]? = some u ∧ (u.type == t) = true) ∧ j = i + 1 ∧ ds = [.token i] := by
  constructor
  · rintro ⟨⟩
    next u hu => exact ⟨⟨u, hu, beq_self_eq_true _⟩, rfl, rfl⟩
  · rintro ⟨⟨u, hu, ht⟩, rfl, rfl⟩
    obtain rfl := beq_iff_eq.mp ht
    exact .token hu

theorem spans_notTokens_iff {ts : List TokenType} {i j : Nat} {ds : List Derivation} :
    Spans bodies input (.expr (.notTokens ts)) i j ds ↔
      (∃ u, input[i]? = some u ∧ (u.type != TokenType.eof && !ts.contains u.type) = true) ∧
        j = i + 1 ∧ ds = [.token i] := by
  constructor
  · rintro ⟨⟩
    next u hne hnot hu => exact ⟨⟨u, hu, by simp [hne, hnot]⟩, rfl, rfl⟩
  · rintro ⟨⟨u, hu, ht⟩, rfl, rfl⟩
    simp only [Bool.and_eq_true, bne_iff_ne, Bool.not_eq_true', List.contains_eq_mem,
      decide_eq_false_iff_not] at ht
    exact .notTokens hu ht.1 ht.2

theorem spans_anyToken_iff {i j : Nat} {ds : List Derivation} :
    Spans bodies input (.expr .anyToken) i j ds ↔
      (∃ u, input[i]? = some u ∧ (u.type != TokenType.eof) = true) ∧ j = i + 1 ∧
        ds = [.token i] := by
  constructor
  · rintro ⟨⟩
    next u hne hu => exact ⟨⟨u, hu, bne_iff_ne.mpr hne⟩, rfl, rfl⟩
  · rintro ⟨⟨u, hu, ht⟩, rfl, rfl⟩
    exact .anyToken hu (bne_iff_ne.mp ht)

/-! ## Rows -/

theorem Exact.continues {e : ParseExpr} {r : Row} {rows : List Row}
    (h : ExactRows bodies input Q e r.stop rows) :
    Continues bodies input Q (.expr e) [r] (rows.map r.then) := by
  refine ⟨by simpa using h.nodup, fun n hn => ?_, fun r' hr j ds hj => ?_⟩
  · obtain ⟨m, hm, rfl⟩ := List.mem_map.mp hn
    exact ⟨r, List.mem_cons_self, m.value.toList, toList_then r m, h.sound m hm⟩
  · obtain rfl := List.mem_singleton.mp hr
    simpa using h.complete j ds hj

theorem extend_continues {I : SearchState → Prop} {next : Nat → Search (List Row)} {e : ParseExpr}
    {r : Row} (h : Ensures I (next r.stop) (ExactRows bodies input Q e r.stop)) :
    Ensures I (extend next r) (Continues bodies input Q (.expr e) [r]) :=
  h.bind fun _ hrows => .pure hrows.continues

theorem extendAll_continues {I : SearchState → Prop} {next : Nat → Search (List Row)}
    {e : ParseExpr} {rows : List Row}
    (h : ∀ r ∈ rows, Ensures I (next r.stop) (ExactRows bodies input Q e r.stop)) :
    Ensures I (extendAll next rows) (Continues bodies input Q (.expr e) rows) := by
  refine (Ensures.mapM fun r hr => extend_continues (h r hr)).bind fun found hfound => .pure ?_
  refine ⟨nodup_stops_distinct _, fun n hn => ?_, fun r hr j ds hj => ?_⟩
  · obtain ⟨list, hlist, hn⟩ := List.mem_flatten.mp (mem_of_mem_distinct hn)
    obtain ⟨r, hr, hcont⟩ := hfound.1 list hlist
    obtain ⟨r', hr', ds, hds⟩ := hcont.sound n hn
    exact ⟨r, hr, ds, List.mem_singleton.mp hr' ▸ hds⟩
  · obtain ⟨list, hlist, hcont⟩ := hfound.2 r hr
    obtain ⟨n, hn, hstop⟩ := mem_stops.mp (hcont.complete r List.mem_cons_self j ds hj)
    exact mem_stops_distinct.mpr (mem_stops.mpr ⟨n, List.mem_flatten_of_mem hlist hn, hstop⟩)

/-! ## Repetitions -/

/-- Rounds of a repetition: each goes on by a match of the body that reads something. -/
def roundCourse (bodies : Array RuleBody) (input : Array Token) (Q : Derivation → Prop)
    (e : ParseExpr) : Course (Rope Derivation) where
  follows r n := r.stop < n.stop ∧ ∃ ds, n.value.toList = r.value.toList ++ ds ∧
    Yields bodies input Q (.expr e) r.stop n.stop ds
  ends r j := r.stop < j ∧ ∃ ds, Spans bodies input (.expr e) r.stop j ds
  due _ _ := False

theorem round_offers {I : SearchState → Prop} {next : Nat → Search (List Row)} {e : ParseExpr}
    {r : Row} (h : Ensures I (next r.stop) (ExactRows bodies input Q e r.stop)) :
    Ensures I (Search.round next r) ((roundCourse bodies input Q e).Offers r) := by
  refine (extend_continues h).bind fun found hfound => .pure ⟨fun n hn => ?_, fun j hj => ?_, ?_⟩
  · obtain ⟨hn, hlt⟩ := List.mem_filter.mp hn
    obtain ⟨r', hr', ds, hds, hspans⟩ := hfound.sound n hn
    obtain rfl := List.mem_singleton.mp hr'
    exact ⟨by simpa using hlt, ds, hds, hspans⟩
  · obtain ⟨hlt, ds, hds⟩ := hj
    exact mem_stops_filter_longer.mpr ⟨hfound.complete r List.mem_cons_self j ds hds, hlt⟩
  · exact .of_forall_not fun _ _ _ h => h

theorem roundCourse_within (e : ParseExpr) (place : Nat) :
    (roundCourse bodies input Q e).Within (fun r => place ≤ r.stop) input.size where
  longer r n h := h.1
  bounded r n h := by
    obtain ⟨hlt, ds, -, hspans, -⟩ := h
    have := hspans.stop_le
    omega
  due_longer _ _ h := h.elim
  good r n hr h := Nat.le_trans hr (Nat.le_of_lt h.1)

/-- Rounds from exact first rows are exact for a repetition whose spans are those of the first rows
and of what goes on from them. -/
theorem visitAll_exact {I : SearchState → Prop} {next : Nat → Search (List Row)}
    {e loop : ParseExpr} {greedy : Bool} {place : Nat} {roots : List Row}
    (hnext : ∀ p, place ≤ p → Ensures I (next p) (ExactRows bodies input Q e p))
    (hroots : ∀ r ∈ roots, Yields bodies input Q (.expr loop) place r.stop r.value.toList)
    (hmore : ∀ j k ds ds', Spans bodies input (.expr loop) place j ds →
      Spans bodies input (.expr e) j k ds' → Spans bodies input (.expr loop) place k (ds ++ ds'))
    (hcover : ∀ places : Nat → Prop, (∀ r ∈ roots, places r.stop) →
      (∀ j k ds, places j → Spans bodies input (.expr e) j k ds → places k) →
      ∀ j ds, Spans bodies input (.expr loop) place j ds → places j) :
    Ensures I (visitAll (Search.round next) greedy (input.size + 1) roots)
      (ExactRows bodies input Q loop place) := by
  have hreached : ∀ r, (roundCourse bodies input Q e).Reached roots r →
      Yields bodies input Q (.expr loop) place r.stop r.value.toList := by
    intro r hr
    induction hr with
    | root h => exact hroots _ h
    | step _ hfollows _ ih =>
        obtain ⟨-, ds, hds, hspans⟩ := hfollows
        rw [hds]
        exact ih.append hspans (hmore _ _ _ _)
  refine (visitAll_ensures (roundCourse_within e place)
    (fun r hr => round_offers (hnext r.stop hr)) (fun r hr => (hroots r hr).1.le)
    (.of_forall_not fun _ _ _ h => h)).mono fun found hfound => ?_
  refine ⟨hfound.nodup, fun r hr => hreached r (hfound.reached r hr), ?_⟩
  refine hcover _ hfound.started fun j k ds hj hspans => ?_
  obtain ⟨r, hr, rfl⟩ := mem_stops.mp hj
  rcases Nat.lt_or_eq_of_le hspans.le with hlt | rfl
  · exact hfound.closed r hr k ⟨hlt, ds, hspans⟩
  · exact hj

/-- Places that hold the start and go on by the body hold all that a repetition spans. -/
theorem Spans.star_covered {e : ParseExpr} {greedy : Bool} {places : Nat → Prop} {phrase : Phrase}
    {i j : Nat} {ds : List Derivation} (h : Spans bodies input phrase i j ds)
    (hphrase : phrase = .expr (.star e greedy)) (hstart : places i)
    (hmore : ∀ j k ds, places j → Spans bodies input (.expr e) j k ds → places k) : places j := by
  induction h with
  | starNil => exact hstart
  | starMore _ hspans ih _ =>
      obtain ⟨rfl, rfl⟩ : _ = e ∧ _ = greedy := by simpa using hphrase
      exact hmore _ _ _ (ih rfl hstart) hspans
  | _ => cases hphrase

theorem Spans.plus_covered {e : ParseExpr} {greedy : Bool} {places : Nat → Prop} {phrase : Phrase}
    {i j : Nat} {ds : List Derivation} (h : Spans bodies input phrase i j ds)
    (hphrase : phrase = .expr (.plus e greedy))
    (hstart : ∀ k ds, Spans bodies input (.expr e) i k ds → places k)
    (hmore : ∀ j k ds, places j → Spans bodies input (.expr e) j k ds → places k) : places j := by
  induction h with
  | plusOne _ hspans _ =>
      obtain ⟨rfl, rfl⟩ : _ = e ∧ _ = greedy := by simpa using hphrase
      exact hstart _ _ hspans
  | plusMore _ hspans ih _ =>
      obtain ⟨rfl, rfl⟩ : _ = e ∧ _ = greedy := by simpa using hphrase
      exact hmore _ _ _ (ih rfl hstart) hspans
  | _ => cases hphrase

/-! ## Expressions -/

/-- Invocations that a phrase can make at a place are answered with matches of some property. -/
def Answers (bodies : Array RuleBody) (P : Invocation → List (Branch Derivation) → Prop)
    (I : SearchState → Prop) (inv : Invoker) (phrase : Phrase) (place : Nat) : Prop :=
  ∀ k, place < k.start ∨ place = k.start ∧ Leads bodies phrase k.rule → Ensures I (inv k) (P k)

variable {I : SearchState → Prop} {inv : Invoker}
variable {P : Invocation → List (Branch Derivation) → Prop}

theorem Answers.later {phrase phrase' : Phrase} {place place' : Nat}
    (h : Answers bodies P I inv phrase place)
    (hle : place < place' ∨ place = place' ∧ ∀ r, Leads bodies phrase' r → Leads bodies phrase r) :
    Answers bodies P I inv phrase' place' := by
  intro k hk
  refine h k ?_
  rcases hle with hlt | ⟨rfl, hleads⟩
  · rcases hk with hk | ⟨hk, -⟩ <;> exact .inl (by omega)
  · rcases hk with hk | ⟨hk, hr⟩
    · exact .inl hk
    · exact .inr ⟨hk, hleads k.rule hr⟩

theorem Answers.of_le {phrase phrase' : Phrase} {place place' : Nat}
    (h : Answers bodies P I inv phrase place) (hle : place ≤ place')
    (hleads : ∀ r, Leads bodies phrase' r → Leads bodies phrase r) :
    Answers bodies P I inv phrase' place' :=
  h.later ((Nat.lt_or_eq_of_le hle).imp id fun he => ⟨he, hleads⟩)

/-- Rows that continue others by an expression stop behind them, at their place only if the
expression can be empty. -/
theorem Continues.behind {e : ParseExpr} {place : Nat} {rows mid : List Row}
    (h : Continues bodies input Q (.expr e) rows mid) (hplace : ∀ r ∈ rows, place ≤ r.stop) :
    ∀ m ∈ mid, place ≤ m.stop ∧ (place = m.stop → Nullable bodies e) := by
  intro m hm
  obtain ⟨r, hr, ds, -, hspans, -⟩ := h.sound m hm
  refine ⟨Nat.le_trans (hplace r hr) hspans.le, fun hstop => ?_⟩
  have hsame : r.stop = m.stop := Nat.le_antisymm hspans.le (hstop ▸ hplace r hr)
  rw [hsame] at hspans
  exact hspans.nullable

/-- Behind its first item a row goes on at a later place, or the item can be empty. -/
theorem Answers.rest {e : ParseExpr} {es : List ParseExpr} {place : Nat} {mid : List Row}
    (h : Answers bodies P I inv (.row (e :: es)) place)
    (hmid : ∀ m ∈ mid, place ≤ m.stop ∧ (place = m.stop → Nullable bodies e)) :
    ∃ place', Answers bodies P I inv (.row es) place' ∧ ∀ m ∈ mid, place' ≤ m.stop := by
  by_cases hnull : Nullable bodies e
  · exact ⟨place, h.of_le (Nat.le_refl _) fun _ => .tail hnull, fun m hm => (hmid m hm).1⟩
  · refine ⟨place + 1, h.later (.inl (Nat.lt_succ_self _)), fun m hm => ?_⟩
    exact Nat.lt_of_le_of_ne (hmid m hm).1 fun hstop => hnull ((hmid m hm).2 hstop)

theorem Continues.trans {e : ParseExpr} {es : List ParseExpr} {rows mid next : List Row}
    (hmid : Continues bodies input Q (.expr e) rows mid)
    (hnext : Continues bodies input Q (.row es) mid next) :
    Continues bodies input Q (.row (e :: es)) rows next := by
  refine ⟨hnext.nodup, fun n hn => ?_, fun r hr j ds hj => ?_⟩
  · obtain ⟨m, hm, ds', hds', hspans'⟩ := hnext.sound n hn
    obtain ⟨r, hr, ds, hds, hspans⟩ := hmid.sound m hm
    exact ⟨r, hr, ds ++ ds', by rw [hds', hds, List.append_assoc],
      hspans.append hspans' .cons⟩
  · cases hj with
    | cons hspans hspans' =>
        obtain ⟨m, hm, rfl⟩ := mem_stops.mp (hmid.complete r hr _ _ hspans)
        exact hnext.complete m hm j _ hspans'

/-- What is spanned by one of several alternatives. -/
structure ExactAny (bodies : Array RuleBody) (input : Array Token) (Q : Derivation → Prop)
    (es : List ParseExpr) (place : Nat) (rows : List Row) : Prop where
  sound : ∀ r ∈ rows, ∃ e ∈ es, Yields bodies input Q (.expr e) place r.stop r.value.toList
  complete : ∀ e ∈ es, ∀ j ds, Spans bodies input (.expr e) place j ds → j ∈ stops rows

theorem ExactAny.append {e : ParseExpr} {es : List ParseExpr} {place : Nat}
    {first others : List Row} (hfirst : ExactRows bodies input Q e place first)
    (hothers : ExactAny bodies input Q es place others) :
    ExactAny bodies input Q (e :: es) place (first ++ others) := by
  refine ⟨fun r hr => ?_, fun e' he j ds hj => ?_⟩
  · rcases List.mem_append.mp hr with hr | hr
    · exact ⟨e, List.mem_cons_self, hfirst.sound r hr⟩
    · obtain ⟨e', he, hspans⟩ := hothers.sound r hr
      exact ⟨e', List.mem_cons_of_mem e he, hspans⟩
  · rw [stops_append, List.mem_append]
    rcases List.mem_cons.mp he with rfl | he
    · exact .inl (hfirst.complete j ds hj)
    · exact .inr (hothers.complete e' he j ds hj)

theorem ExactAny.choice {es : List ParseExpr} {place : Nat} {rows : List Row}
    (h : ExactAny bodies input Q es place rows) :
    ExactRows bodies input Q (.choice es) place (distinct rows) := by
  refine ⟨nodup_stops_distinct rows, fun r hr => ?_, fun j ds hj => mem_stops_distinct.mpr ?_⟩
  · obtain ⟨e, he, hspans⟩ := h.sound r (mem_of_mem_distinct hr)
    exact hspans.imp (.choice he)
  · cases hj with
    | choice he hspans => exact h.complete _ he j ds hspans

theorem mem_optional_iff {greedy : Bool} {rows : List Row} {place : Nat} {r : Row} :
    r ∈ (if greedy then rows else Row.empty place :: rows) ++ [Row.empty place] ↔
      r ∈ rows ∨ r = Row.empty place := by
  cases greedy
  · simp only [Bool.false_eq_true, if_false, List.mem_append, List.mem_cons, List.not_mem_nil,
      or_false]
    tauto
  · simp

theorem ExactRows.optional {e : ParseExpr} {place : Nat} {rows : List Row} (greedy : Bool)
    (h : ExactRows bodies input Q e place rows) :
    ExactRows bodies input Q (.optional e greedy) place
      (distinct ((if greedy then rows else Row.empty place :: rows) ++ [Row.empty place])) := by
  refine ⟨nodup_stops_distinct _, fun r hr => ?_, fun j ds hj => mem_stops_distinct.mpr ?_⟩
  · rcases mem_optional_iff.mp (mem_of_mem_distinct hr) with hr | rfl
    · exact (h.sound r hr).imp (.take greedy)
    · exact ⟨.skip e greedy place, by simp⟩
  · cases hj with
    | skip => exact mem_stops.mpr ⟨Row.empty place, mem_optional_iff.mpr (.inr rfl), rfl⟩
    | take _ hspans =>
        obtain ⟨r, hr, hstop⟩ := mem_stops.mp (h.complete j ds hspans)
        exact mem_stops.mpr ⟨r, mem_optional_iff.mpr (.inl hr), hstop⟩

theorem recognizes_exact {index precedence : UInt32} {place : Nat}
    {found : List (Branch Derivation)}
    (h : Recognizes bodies input Q ⟨index, precedence, place⟩ found) :
    ExactRows bodies input Q (.rule index precedence) place
      (found.map fun b => Row.single b.stop b.value) := by
  have hstops : stops (found.map fun b => Row.single b.stop b.value) = stops found := by
    simp [stops, Row.single, Function.comp_def]
  refine ⟨hstops ▸ h.nodup, fun r hr => ?_, fun j ds hj => ?_⟩
  · obtain ⟨b, hb, rfl⟩ := List.mem_map.mp hr
    exact (h.sound b hb).imp .call
  · rw [hstops]
    cases hj with
    | call hspans => exact h.complete j ds hspans

mutual
/-- The cases are those of expressions; the parts of an expression lead to no more rules than it. -/
theorem eval_exact (hI : ∀ s place expected, I s → I (s.refuse place expected))
    (hQ : ∀ place, Q (.token place)) :
    ∀ (e : ParseExpr) (place : Nat),
      Answers bodies (Recognizes bodies input Q) I inv (.expr e) place →
      Ensures I (eval input inv e place) (ExactRows bodies input Q e place)
  | .empty, place, _ => by
      rw [eval]
      refine .pure ⟨by simp, fun r hr => ?_, fun j ds hj => ?_⟩
      · obtain rfl := List.mem_singleton.mp hr
        exact ⟨.empty place, by simp⟩
      · cases hj
        exact List.mem_singleton.mpr rfl
  | .token t, place, _ => by
      rw [eval]
      exact matchToken_exact hI hQ fun _ _ => spans_token_iff
  | .notTokens ts, place, _ => by
      rw [eval]
      exact matchToken_exact hI hQ fun _ _ => spans_notTokens_iff
  | .anyToken, place, _ => by
      rw [eval]
      exact matchToken_exact hI hQ fun _ _ => spans_anyToken_iff
  | .rule index precedence, place, h => by
      rw [eval]
      exact (h ⟨index, precedence, place⟩ (.inr ⟨rfl, .call index precedence⟩)).bind
        fun found hfound => .pure (recognizes_exact hfound)
  | .seq items, place, h => by
      rw [eval]
      refine (evalSeq_continues hI hQ items [Row.empty place] place
        (h.of_le (Nat.le_refl _) fun _ => .seq) (by simp) (by simp)).mono fun rows hrows => ?_
      refine hrows.exact fun j ds => ⟨fun hj => ?_, .seq⟩
      cases hj with
      | seq hspans => exact hspans
  | .choice alternatives, place, h => by
      rw [eval]
      refine (evalChoice_exact hI hQ alternatives place fun e he =>
        h.of_le (Nat.le_refl _) fun _ => .choice he).bind fun rows hrows => .pure hrows.choice
  | .optional body greedy, place, h => by
      rw [eval]
      exact (eval_exact hI hQ body place (h.of_le (Nat.le_refl _) fun _ => .optional greedy)).bind
        fun rows hrows => .pure (ExactRows.optional greedy hrows)
  | .star body greedy, place, h => by
      rw [eval]
      refine visitAll_exact
        (fun p hp => eval_exact hI hQ body p (h.of_le hp fun _ => .star greedy)) ?_
        (fun _ _ _ _ => .starMore) fun places hroots hmore j ds hj =>
          hj.star_covered rfl (hroots _ List.mem_cons_self) hmore
      intro r hr
      obtain rfl := List.mem_singleton.mp hr
      exact ⟨.starNil body greedy place, by simp⟩
  | .plus body greedy, place, h => by
      rw [eval]
      have hbody : ∀ p, place ≤ p →
          Ensures I (eval input inv body p) (ExactRows bodies input Q body p) :=
        fun p hp => eval_exact hI hQ body p (h.of_le hp fun _ => .plus greedy)
      refine (hbody place (Nat.le_refl _)).bind fun first hfirst => ?_
      refine visitAll_exact hbody (fun r hr => (hfirst.sound r hr).imp (.plusOne greedy))
        (fun _ _ _ _ => .plusMore) fun places hroots hmore j ds hj =>
          hj.plus_covered rfl (fun k ds' hk => ?_) hmore
      obtain ⟨r, hr, rfl⟩ := mem_stops.mp (hfirst.complete k ds' hk)
      exact hroots r hr

theorem evalSeq_continues (hI : ∀ s place expected, I s → I (s.refuse place expected))
    (hQ : ∀ place, Q (.token place)) :
    ∀ (items : List ParseExpr) (rows : List Row) (place : Nat),
      Answers bodies (Recognizes bodies input Q) I inv (.row items) place →
      (∀ r ∈ rows, place ≤ r.stop) → (stops rows).Nodup →
      Ensures I (evalSeq input inv items rows) (Continues bodies input Q (.row items) rows)
  | [], rows, place, _, _, hnodup => by
      rw [evalSeq]
      refine .pure ⟨hnodup, fun r hr => ⟨r, hr, [], by simp, .nil r.stop, by simp⟩,
        fun r hr j ds hj => ?_⟩
      cases hj
      exact mem_stops_of_mem hr
  | e :: rest, rows, place, h, hplace, _ => by
      rw [evalSeq]
      refine (extendAll_continues fun r hr => eval_exact hI hQ e r.stop
        (h.of_le (hplace r hr) fun _ => .head rest)).bind fun mid hmid => ?_
      obtain ⟨place', hrest, hplace'⟩ := h.rest (hmid.behind hplace)
      exact (evalSeq_continues hI hQ rest mid place' hrest hplace' hmid.nodup).mono
        fun next hnext => hmid.trans hnext

theorem evalChoice_exact (hI : ∀ s place expected, I s → I (s.refuse place expected))
    (hQ : ∀ place, Q (.token place)) :
    ∀ (es : List ParseExpr) (place : Nat),
      (∀ e ∈ es, Answers bodies (Recognizes bodies input Q) I inv (.expr e) place) →
      Ensures I (evalChoice input inv es place) (ExactAny bodies input Q es place)
  | [], place, _ => by
      rw [evalChoice]
      exact .pure ⟨by simp, by simp⟩
  | e :: rest, place, h => by
      rw [evalChoice]
      refine (eval_exact hI hQ e place (h e List.mem_cons_self)).bind fun first hfirst => ?_
      exact (evalChoice_exact hI hQ rest place fun e' he => h e' (List.mem_cons_of_mem e he)).bind
        fun others hothers => .pure (ExactAny.append hfirst hothers)
end

end GrammarEngine.Parser
