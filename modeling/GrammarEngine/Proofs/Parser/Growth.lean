import GrammarEngine.Proofs.Parser.Recognition

/-!
# Growth of left-recursive rules

A left-recursive rule goes from the matches of its primary to longer ones by the suffixes that are
admitted. The growths that are visited reach exactly the places up to which the rule spans the
input. With this every body is exact as soon as the invocations that it makes are.

What else comes before a growth, wherever it is found, is left open here.
-/
namespace GrammarEngine.Parser

open Branch Search

variable {bodies : Array RuleBody} {input : Array Token} {i : Invocation}
variable {primary : ParseExpr} {suffixes : List Suffix} {due : Branch Derivation → Nat → Prop}
variable {Q : Derivation → Prop} {P : Invocation → List (Branch Derivation) → Prop}

/-- Growth by a consuming match of an admitted suffix. -/
def growthCourse (bodies : Array RuleBody) (input : Array Token) (Q : Derivation → Prop)
    (i : Invocation) (suffixes : List Suffix) (due : Branch Derivation → Nat → Prop) :
    Course Derivation where
  follows b d := ∃ s ∈ suffixes, i.precedence ≤ s.precedence ∧ b.stop < d.stop ∧
    ∃ ds, Yields bodies input Q (.expr s.body) b.stop d.stop ds ∧
      d.value = .rule i (some s.precedence) d.stop (b.value :: ds)
  ends b j := ∃ s ∈ suffixes, i.precedence ≤ s.precedence ∧ b.stop < j ∧
    ∃ ds, Spans bodies input (.expr s.body) b.stop j ds
  due := due

@[simp] theorem stop_derivation (q : Option UInt32) (r : Row) : (derivation i q r).stop = r.stop :=
  rfl

@[simp] theorem value_derivation (q : Option UInt32) (r : Row) :
    (derivation i q r).value = .rule i q r.stop r.value.toList := rfl

@[simp] theorem stops_map_derivation (q : Option UInt32) (rows : List Row) :
    stops (rows.map (derivation i q)) = stops rows := by
  simp [stops, Function.comp_def]

/-- A row that holds one match. -/
def operandRow (b : Branch Derivation) : Row := Row.single b.stop b.value

/-- Growth offers what the rounds of the admitted suffixes offer. -/
theorem growth_offers {I : SearchState → Prop} {inv : Invoker} {b : Branch Derivation}
    (h : ∀ s ∈ suffixes, Ensures I (Search.round (eval input inv s.body) (operandRow b)) fun rows =>
      (roundCourse bodies input Q s.body).Offers (operandRow b) rows ∧
        Ordered due (rows.map (derivation i (some s.precedence)))) :
    Ensures I (growth input inv i suffixes b)
      ((growthCourse bodies input Q i suffixes due).Offers b) := by
  refine (Ensures.mapM (Q := fun s found => ∃ rows,
    (roundCourse bodies input Q s.body).Offers (operandRow b) rows ∧
      Ordered due (rows.map (derivation i (some s.precedence))) ∧
      found = rows.map (derivation i (some s.precedence))) fun s hs => ?_).bind
    fun found hfound => .pure ⟨fun d hd => ?_, fun j hj => ?_, ?_⟩
  · exact (h s (List.mem_filter.mp hs).1).bind fun rows hrows => .pure ⟨rows, hrows.1, hrows.2, rfl⟩
  · obtain ⟨list, hlist, hd⟩ := List.mem_flatten.mp hd
    obtain ⟨s, hs, rows, hoffers, -, rfl⟩ := hfound.1 list hlist
    obtain ⟨n, hn, rfl⟩ := List.mem_map.mp hd
    obtain ⟨hs, hle⟩ := List.mem_filter.mp hs
    obtain ⟨hlt, ds, hds, hspans⟩ := hoffers.follows n hn
    refine ⟨s, hs, by simpa using hle, hlt, ds, hspans, ?_⟩
    simp [hds, operandRow, Row.single]
  · obtain ⟨s, hs, hle, hlt, ds, hspans⟩ := hj
    have hmem : s ∈ suffixes.filter fun s => i.precedence ≤ s.precedence :=
      List.mem_filter.mpr ⟨hs, by simpa using hle⟩
    obtain ⟨list, hlist, rows, hoffers, -, rfl⟩ := hfound.2 s hmem
    have hrows : j ∈ stops rows := hoffers.ends j ⟨hlt, ds, hspans⟩
    rw [← stops_map_derivation (i := i) (some s.precedence)] at hrows
    obtain ⟨d, hd, rfl⟩ := mem_stops.mp hrows
    exact mem_stops_of_mem (List.mem_flatten.mpr ⟨_, hlist, hd⟩)
  · refine .flatten fun list hlist => ?_
    obtain ⟨s, -, rows, -, hordered, rfl⟩ := hfound.1 list hlist
    exact hordered

theorem growthCourse_within (i : Invocation) (suffixes : List Suffix)
    (hdue : ∀ b j, due b j → b.stop < j) {good : Branch Derivation → Prop}
    (hgood : ∀ b d, good b → (growthCourse bodies input Q i suffixes due).follows b d → good d) :
    (growthCourse bodies input Q i suffixes due).Within good input.size where
  longer b d h := by
    obtain ⟨s, -, -, hlt, -⟩ := h
    exact hlt
  bounded b d h := by
    obtain ⟨s, -, -, hlt, ds, ⟨hspans, -⟩, -⟩ := h
    have := hspans.stop_le
    omega
  due_longer := hdue
  good := hgood

/-- A match of an invocation. -/
def IsMatch (bodies : Array RuleBody) (input : Array Token) (i : Invocation)
    (b : Branch Derivation) : Prop :=
  Spans bodies input (.rule i.rule i.precedence) i.start b.stop [b.value]

theorem IsMatch.seed {r : Row}
    (hbody : bodies[i.rule.toNat]? = some (.leftRecursive primary suffixes))
    (h : Spans bodies input (.expr primary) i.start r.stop r.value.toList) :
    IsMatch bodies input i (derivation i none r) := .primary i.precedence hbody h

theorem IsMatch.follows {b d : Branch Derivation}
    (hbody : bodies[i.rule.toNat]? = some (.leftRecursive primary suffixes))
    (hb : IsMatch bodies input i b)
    (h : (growthCourse bodies input Q i suffixes due).follows b d) : IsMatch bodies input i d := by
  obtain ⟨s, hs, hle, hlt, ds, hspans, hd⟩ := h
  rw [IsMatch, hd]
  exact .suffix hbody hs hle hlt hb hspans.1

/-- A rule that matches nothing has a primary that matches nothing. -/
theorem Spans.nullable_primary {place : Nat} {index precedence : UInt32} {ds : List Derivation}
    (hbody : bodies[index.toNat]? = some (.leftRecursive primary suffixes))
    (h : Spans bodies input (.rule index precedence) place place ds) : Nullable bodies primary := by
  cases h with
  | plain _ hplain _ =>
      rw [hbody] at hplain
      cases hplain
  | primary _ hprimary hspans =>
      rw [hbody] at hprimary
      cases hprimary
      exact hspans.nullable
  | suffix _ _ _ hlt hspans _ =>
      have := hspans.le
      omega

/-- The places of a left-recursive rule are those of its primary and all that grow from them. -/
theorem Spans.leftRecursive_covered {places : Nat → Prop} {phrase : Phrase} {place j : Nat}
    {index precedence : UInt32} {ds : List Derivation} (h : Spans bodies input phrase place j ds)
    (hphrase : phrase = .rule index precedence)
    (hbody : bodies[index.toNat]? = some (.leftRecursive primary suffixes))
    (hstart : ∀ k ds, Spans bodies input (.expr primary) place k ds → places k)
    (hmore : ∀ s ∈ suffixes, precedence ≤ s.precedence → ∀ j k ds, places j → j < k →
      Spans bodies input (.expr s.body) j k ds → places k) : places j := by
  induction h with
  | plain _ hplain _ _ =>
      cases hphrase
      rw [hbody] at hplain
      cases hplain
  | primary _ hprimary hspans _ =>
      cases hphrase
      rw [hbody] at hprimary
      cases hprimary
      exact hstart _ _ hspans
  | suffix hsuffix hs hle hlt _ hspans ih _ =>
      cases hphrase
      rw [hbody] at hsuffix
      cases hsuffix
      exact hmore _ hs hle _ _ _ (ih rfl hstart) hlt hspans
  | _ => cases hphrase

/-- All growths of exact seeds are exact. -/
theorem recognizes_explored {seeds : List Row} {found : List (Branch Derivation)}
    (hbody : bodies[i.rule.toNat]? = some (.leftRecursive primary suffixes))
    (hseeds : ExactRows bodies input Q primary i.start seeds)
    (h : (growthCourse bodies input Q i suffixes due).Explored true
      (seeds.map (derivation i none)) found)
    (hQ : ∀ b ∈ found, Q b.value) : Recognizes bodies input Q i found := by
  refine ⟨h.nodup, fun b hb => ⟨?_, by simpa using hQ b hb⟩, fun j ds hj => ?_⟩
  · have hreached := h.reached b hb
    clear hb
    induction hreached with
    | root hroot =>
        obtain ⟨r, hr, rfl⟩ := List.mem_map.mp hroot
        exact IsMatch.seed hbody (hseeds.sound r hr).1
    | step _ hfollows _ ih => exact IsMatch.follows hbody ih hfollows
  · refine hj.leftRecursive_covered rfl hbody (fun k ds' hk => ?_)
      fun s hs hle k l ds' hk hlt hl => ?_
    · obtain ⟨r, hr, rfl⟩ := mem_stops.mp (hseeds.complete k ds' hk)
      exact h.started _ (List.mem_map_of_mem hr)
    · obtain ⟨b, hb, rfl⟩ := mem_stops.mp hk
      exact h.closed b hb l ⟨s, hs, hle, hlt, ds', hl⟩

/-- Exact rows of the body of a plain rule are exact matches of the rule. -/
theorem recognizes_plain {rows : List Row} {body : ParseExpr}
    (hbody : bodies[i.rule.toNat]? = some (.plain body))
    (hrows : ExactRows bodies input Q body i.start rows)
    (hQ : ∀ r ∈ rows, Q (derivation i none r).value) :
    Recognizes bodies input Q i (rows.map (derivation i none)) := by
  refine ⟨(stops_map_derivation none rows) ▸ hrows.nodup, fun b hb => ?_, fun j ds hj => ?_⟩
  · obtain ⟨r, hr, rfl⟩ := List.mem_map.mp hb
    exact ⟨.plain i.precedence hbody (hrows.sound r hr).1, by simpa using hQ r hr⟩
  · rw [stops_map_derivation]
    cases hj with
    | plain _ hplain hspans =>
        rw [hbody] at hplain
        cases hplain
        exact hrows.complete j _ hspans
    | primary _ hprimary _ =>
        rw [hbody] at hprimary
        cases hprimary
    | suffix hsuffix =>
        rw [hbody] at hsuffix
        cases hsuffix

theorem recognizes_absent (habsent : bodies[i.rule.toNat]? = none) :
    Recognizes bodies input Q i [] := by
  refine ⟨List.nodup_nil, by simp, fun j ds hj => ?_⟩
  cases hj <;> simp_all

/-! ## Bodies -/

variable {I : SearchState → Prop} {inv : Invoker}

/-- If the calls of an invocation are answered, so are those of the body of its plain rule. -/
theorem answers_plain {body : ParseExpr} (h : ∀ k, Calls bodies i k → Ensures I (inv k) (P k))
    (hbody : bodies[i.rule.toNat]? = some (.plain body)) :
    Answers bodies P I inv (.expr body) i.start :=
  fun k hk => h k (hk.imp id fun ⟨hs, hr⟩ => ⟨hs, .plain hbody hr⟩)

theorem answers_primary (h : ∀ k, Calls bodies i k → Ensures I (inv k) (P k))
    (hbody : bodies[i.rule.toNat]? = some (.leftRecursive primary suffixes)) :
    Answers bodies P I inv (.expr primary) i.start :=
  fun k hk => h k (hk.imp id fun ⟨hs, hr⟩ => ⟨hs, .primary hbody hr⟩)

/-- A suffix goes on behind a match; at the start it does so only if the primary matches nothing. -/
theorem calls_suffix {s : Suffix} {b : Branch Derivation} {k : Invocation}
    (hbody : bodies[i.rule.toNat]? = some (.leftRecursive primary suffixes)) (hs : s ∈ suffixes)
    (hb : IsMatch bodies input i b)
    (hk : b.stop < k.start ∨ b.stop = k.start ∧ Leads bodies (.expr s.body) k.rule) :
    Calls bodies i k := by
  rcases Nat.lt_or_eq_of_le (Spans.le hb) with hlt | heq
  · exact .inl (by omega)
  · rcases hk with hk | ⟨hk, hr⟩
    · exact .inl (by omega)
    · have hspans := hb
      rw [IsMatch, ← heq] at hspans
      exact .inr ⟨heq.trans hk, .suffix hbody (hspans.nullable_primary hbody) hs hr⟩

theorem answers_suffix {s : Suffix} {b : Branch Derivation}
    (h : ∀ k, Calls bodies i k → Ensures I (inv k) (P k))
    (hbody : bodies[i.rule.toNat]? = some (.leftRecursive primary suffixes)) (hs : s ∈ suffixes)
    (hb : IsMatch bodies input i b) : Answers bodies P I inv (.expr s.body) b.stop :=
  fun k hk => h k (calls_suffix hbody hs hb hk)

/-- The matches of every body are exact if those of the invocations that it makes are. -/
theorem recognizes_hereditary :
    Hereditary bodies input (Recognizes bodies input fun _ => True) where
  absent i habsent := recognizes_absent habsent
  body I inv i body hI h hbody := by
    cases body with
    | plain body =>
        exact (eval_exact hI (fun _ => trivial) body i.start (answers_plain h hbody)).bind
          fun rows hrows => .pure (recognizes_plain hbody hrows fun _ _ => trivial)
    | leftRecursive primary suffixes =>
        refine (eval_exact hI (fun _ => trivial) primary i.start (answers_primary h hbody)).bind
          fun seeds hseeds => ?_
        have hwithin :
            (growthCourse bodies input (fun _ => True) i suffixes fun _ _ => False).Within
              (IsMatch bodies input i) input.size :=
          growthCourse_within i suffixes nofun fun _ _ => IsMatch.follows hbody
        refine (visitAll_ensures hwithin (fun b hb => growth_offers fun s hs => ?_) (fun b hb => ?_)
          (.of_forall_not fun _ _ _ h => h)).mono fun found hfound =>
            recognizes_explored hbody hseeds hfound fun _ _ => trivial
        · exact (round_offers (eval_exact hI (fun _ => trivial) s.body b.stop
            (answers_suffix h hbody hs hb))).mono
            fun rows hrows => ⟨hrows, .of_forall_not fun _ _ _ h => h⟩
        · obtain ⟨r, hr, rfl⟩ := List.mem_map.mp hb
          exact IsMatch.seed hbody (hseeds.sound r hr).1

end GrammarEngine.Parser
