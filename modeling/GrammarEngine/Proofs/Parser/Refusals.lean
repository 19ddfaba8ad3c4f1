import GrammarEngine.Proofs.Parser.Enumeration
import GrammarEngine.Proofs.Search.Refusals

/-!
# What plain backtracking refuses

On the way to a list, plain backtracking makes other lists, and where it comes to a token that is
asked for it may find another one and refuse it. It goes on from every way of a first part, however
many of them end at the same place, and it makes the same list again wherever it is needed again.

What is refused behind a way depends on the place at which the way ends only.
-/
namespace GrammarEngine.Parser

open Branch

/-- Making a list, plain backtracking refuses a token. The cases are those in which a list is put
together: each list that is needed is made, with all that is refused on the way to it. -/
inductive Refuses (bodies : Array RuleBody) (input : Array Token) : Question → Refusal → Prop
  | token {t : TokenType} {place : Nat} {u : Token} :
      input[place]? = some u → u.type ≠ t → Refuses bodies input (.ways (.token t) place) ⟨place, t⟩
  | notTokens {ts : List TokenType} {place : Nat} {u : Token} :
      input[place]? = some u → u.type = TokenType.eof ∨ u.type ∈ ts →
      Refuses bodies input (.ways (.notTokens ts) place) ⟨place, none⟩
  | anyToken {place : Nat} {u : Token} :
      input[place]? = some u → u.type = TokenType.eof →
      Refuses bodies input (.ways .anyToken place) ⟨place, none⟩
  | call {index precedence : UInt32} {place : Nat} {r : Refusal} :
      Refuses bodies input (.enumerate ⟨index, precedence, place⟩) r →
      Refuses bodies input (.ways (.rule index precedence) place) r
  | seq {items : List ParseExpr} {place : Nat} {r : Refusal} :
      Refuses bodies input (.rowWays items place) r →
      Refuses bodies input (.ways (.seq items) place) r
  | choice {alternatives : List ParseExpr} {e : ParseExpr} {place : Nat} {r : Refusal} :
      e ∈ alternatives → Refuses bodies input (.ways e place) r →
      Refuses bodies input (.ways (.choice alternatives) place) r
  | optional {body : ParseExpr} {greedy : Bool} {place : Nat} {r : Refusal} :
      Refuses bodies input (.ways body place) r →
      Refuses bodies input (.ways (.optional body greedy) place) r
  | star {body : ParseExpr} {greedy : Bool} {place : Nat} {r : Refusal} :
      Refuses bodies input (.rounds body greedy place) r →
      Refuses bodies input (.ways (.star body greedy) place) r
  | plusOne {body : ParseExpr} {greedy : Bool} {place : Nat} {r : Refusal} :
      Refuses bodies input (.ways body place) r →
      Refuses bodies input (.ways (.plus body greedy) place) r
  | plusMore {body : ParseExpr} {greedy : Bool} {place : Nat} {first : List Way} {w : Way}
      {r : Refusal} :
      ways bodies input body place = some first → w ∈ first →
      Refuses bodies input (.rounds body greedy w.stop) r →
      Refuses bodies input (.ways (.plus body greedy) place) r
  | head {e : ParseExpr} {rest : List ParseExpr} {place : Nat} {r : Refusal} :
      Refuses bodies input (.ways e place) r → Refuses bodies input (.rowWays (e :: rest) place) r
  | tail {e : ParseExpr} {rest : List ParseExpr} {place : Nat} {first : List Way} {w : Way}
      {r : Refusal} :
      ways bodies input e place = some first → w ∈ first →
      Refuses bodies input (.rowWays rest w.stop) r →
      Refuses bodies input (.rowWays (e :: rest) place) r
  | once {body : ParseExpr} {greedy : Bool} {place : Nat} {r : Refusal} :
      Refuses bodies input (.ways body place) r → Refuses bodies input (.rounds body greedy place) r
  | again {body : ParseExpr} {greedy : Bool} {place : Nat} {first : List Way} {w : Way}
      {r : Refusal} :
      longer (ways bodies input body) place = some first → w ∈ first →
      Refuses bodies input (.rounds body greedy w.stop) r →
      Refuses bodies input (.rounds body greedy place) r
  | suffix {i : Invocation} {suffixes : List Suffix} {operand : Branch Derivation} {s : Suffix}
      {r : Refusal} :
      s ∈ suffixes → i.precedence ≤ s.precedence →
      Refuses bodies input (.ways s.body operand.stop) r →
      Refuses bodies input (.growths i suffixes operand) r
  | grown {i : Invocation} {suffixes : List Suffix} {operand b : Branch Derivation}
      {first : List (Branch Derivation)} {r : Refusal} :
      lengthened bodies input i suffixes operand = some first → b ∈ first →
      Refuses bodies input (.growths i suffixes b) r →
      Refuses bodies input (.growths i suffixes operand) r
  | plain {i : Invocation} {body : ParseExpr} {r : Refusal} :
      bodies[i.rule.toNat]? = some (.plain body) → Refuses bodies input (.ways body i.start) r →
      Refuses bodies input (.enumerate i) r
  | primary {i : Invocation} {primary : ParseExpr} {suffixes : List Suffix} {r : Refusal} :
      bodies[i.rule.toNat]? = some (.leftRecursive primary suffixes) →
      Refuses bodies input (.ways primary i.start) r → Refuses bodies input (.enumerate i) r
  | growing {i : Invocation} {primary : ParseExpr} {suffixes : List Suffix} {seeds : List Way}
      {w : Way} {r : Refusal} :
      bodies[i.rule.toNat]? = some (.leftRecursive primary suffixes) →
      ways bodies input primary i.start = some seeds → w ∈ seeds →
      Refuses bodies input (.growths i suffixes (w.derivation i none)) r →
      Refuses bodies input (.enumerate i) r

/-- Only tokens that are there are refused. -/
theorem Refuses.exists_token {bodies : Array RuleBody} {input : Array Token} {q : Question}
    {r : Refusal} (h : Refuses bodies input q r) : ∃ u, input[r.place]? = some u := by
  induction h with
  | token hu _ => exact ⟨_, hu⟩
  | notTokens hu _ => exact ⟨_, hu⟩
  | anyToken hu _ => exact ⟨_, hu⟩
  | _ => assumption

/-- All that plain backtracking refuses on the way to a list. -/
def refused (bodies : Array RuleBody) (input : Array Token) (q : Question) : Set Refusal :=
  {r | Refuses bodies input q r}

/-- What is refused where ways end. -/
def refusedBehind (found : Option (List Way)) (refusals : Nat → Set Refusal) : Set Refusal :=
  {r | ∃ all, found = some all ∧ ∃ j ∈ stops all, r ∈ refusals j}

/-- What is refused by asking for one token. -/
def refusedToken (input : Array Token) (expected : Option TokenType) (accepts : TokenType → Bool)
    (place : Nat) : Set Refusal :=
  {r | r = ⟨place, expected⟩ ∧ ∃ u, input[place]? = some u ∧ accepts u.type = false}

section Equations

variable {bodies : Array RuleBody} {input : Array Token}

@[simp] theorem refused_empty (place : Nat) : refused bodies input (.ways .empty place) = ∅ := by
  ext r
  exact ⟨nofun, nofun⟩

@[simp] theorem refused_token (t : TokenType) (place : Nat) :
    refused bodies input (.ways (.token t) place) =
      refusedToken input (some t) (fun u => u == t) place := by
  ext r
  constructor
  · intro h
    cases h with
    | token hu hne => exact ⟨rfl, _, hu, by simpa using hne⟩
  · rintro ⟨rfl, u, hu, hne⟩
    exact .token hu (by simpa using hne)

@[simp] theorem refused_notTokens (ts : List TokenType) (place : Nat) :
    refused bodies input (.ways (.notTokens ts) place) =
      refusedToken input none (fun u => u != TokenType.eof && !ts.contains u) place := by
  ext r
  constructor
  · intro h
    cases h with
    | notTokens hu htype =>
        refine ⟨rfl, _, hu, ?_⟩
        rcases htype with h | h <;> simp [h]
  · rintro ⟨rfl, u, hu, htype⟩
    simp only [Bool.and_eq_false_iff, bne_eq_false_iff_eq, Bool.not_eq_false',
      List.contains_iff_mem] at htype
    exact .notTokens hu htype

@[simp] theorem refused_anyToken (place : Nat) :
    refused bodies input (.ways .anyToken place) =
      refusedToken input none (fun u => u != TokenType.eof) place := by
  ext r
  constructor
  · intro h
    cases h with
    | anyToken hu htype => exact ⟨rfl, _, hu, by simp [htype]⟩
  · rintro ⟨rfl, u, hu, htype⟩
    exact .anyToken hu (by simpa using htype)

@[simp] theorem refused_rule (index precedence : UInt32) (place : Nat) :
    refused bodies input (.ways (.rule index precedence) place) =
      refused bodies input (.enumerate ⟨index, precedence, place⟩) := by
  ext r
  exact ⟨fun h => by cases h; assumption, .call⟩

@[simp] theorem refused_seq (items : List ParseExpr) (place : Nat) :
    refused bodies input (.ways (.seq items) place) =
      refused bodies input (.rowWays items place) := by
  ext r
  exact ⟨fun h => by cases h; assumption, .seq⟩

@[simp] theorem refused_choice (alternatives : List ParseExpr) (place : Nat) :
    refused bodies input (.ways (.choice alternatives) place) =
      ⋃ e ∈ alternatives, refused bodies input (.ways e place) := by
  ext r
  simp only [Set.mem_iUnion, exists_prop]
  constructor
  · intro h
    cases h with
    | choice he h => exact ⟨_, he, h⟩
  · intro ⟨e, he, h⟩
    exact .choice he h

@[simp] theorem refused_optional (body : ParseExpr) (greedy : Bool) (place : Nat) :
    refused bodies input (.ways (.optional body greedy) place) =
      refused bodies input (.ways body place) := by
  ext r
  exact ⟨fun h => by cases h; assumption, .optional⟩

@[simp] theorem refused_star (body : ParseExpr) (greedy : Bool) (place : Nat) :
    refused bodies input (.ways (.star body greedy) place) =
      refused bodies input (.rounds body greedy place) := by
  ext r
  exact ⟨fun h => by cases h; assumption, .star⟩

theorem refused_plus (body : ParseExpr) (greedy : Bool) (place : Nat) :
    refused bodies input (.ways (.plus body greedy) place) =
      refused bodies input (.ways body place) ∪
        refusedBehind (ways bodies input body place) fun j =>
          refused bodies input (.rounds body greedy j) := by
  ext r
  constructor
  · intro h
    cases h with
    | plusOne h => exact .inl h
    | plusMore hfirst hw h => exact .inr ⟨_, hfirst, _, mem_stops_of_mem hw, h⟩
  · rintro (h | ⟨first, hfirst, j, hj, h⟩)
    · exact .plusOne h
    · obtain ⟨w, hw, rfl⟩ := mem_stops.mp hj
      exact .plusMore hfirst hw h

@[simp] theorem refused_rowWays_nil (place : Nat) :
    refused bodies input (.rowWays [] place) = ∅ := by
  ext r
  exact ⟨nofun, nofun⟩

theorem refused_rowWays_cons (e : ParseExpr) (rest : List ParseExpr) (place : Nat) :
    refused bodies input (.rowWays (e :: rest) place) =
      refused bodies input (.ways e place) ∪
        refusedBehind (ways bodies input e place) fun j =>
          refused bodies input (.rowWays rest j) := by
  ext r
  constructor
  · intro h
    cases h with
    | head h => exact .inl h
    | tail hfirst hw h => exact .inr ⟨_, hfirst, _, mem_stops_of_mem hw, h⟩
  · rintro (h | ⟨first, hfirst, j, hj, h⟩)
    · exact .head h
    · obtain ⟨w, hw, rfl⟩ := mem_stops.mp hj
      exact .tail hfirst hw h

theorem refused_rounds {body : ParseExpr} {greedy : Bool} {w : Way} {following : List Way}
    (h : onward (longer (ways bodies input body)) w = some following) :
    refused bodies input (.rounds body greedy w.stop) =
      refused bodies input (.ways body w.stop) ∪
        ⋃ d ∈ following, refused bodies input (.rounds body greedy d.stop) := by
  rw [onward_eq] at h
  obtain ⟨first, hfirst, rfl⟩ := Option.map_eq_some_iff.mp h
  ext r
  simp only [Set.mem_union, Set.mem_iUnion, exists_prop]
  constructor
  · intro h
    cases h with
    | once h => exact .inl h
    | again hfirst' hd h =>
        obtain rfl := Option.some.inj (hfirst.symm.trans hfirst')
        exact .inr ⟨_, List.mem_map_of_mem hd, h⟩
  · rintro (h | ⟨_, hmem, h⟩)
    · exact .once h
    · obtain ⟨d, hd, rfl⟩ := List.mem_map.mp hmem
      exact .again hfirst hd h

theorem refused_growths {i : Invocation} {suffixes : List Suffix}
    {operand : Branch Derivation} {following : List (Branch Derivation)}
    (h : lengthened bodies input i suffixes operand = some following) :
    refused bodies input (.growths i suffixes operand) =
      (⋃ s ∈ suffixes.filter fun s => i.precedence ≤ s.precedence,
        refused bodies input (.ways s.body operand.stop)) ∪
        ⋃ b ∈ following, refused bodies input (.growths i suffixes b) := by
  ext r
  simp only [Set.mem_union, Set.mem_iUnion, exists_prop, List.mem_filter, decide_eq_true_iff]
  constructor
  · intro h'
    cases h' with
    | suffix hs hle h' => exact .inl ⟨_, ⟨hs, hle⟩, h'⟩
    | grown hfollowing hb h' =>
        obtain rfl := Option.some.inj (h.symm.trans hfollowing)
        exact .inr ⟨_, hb, h'⟩
  · rintro (⟨s, ⟨hs, hle⟩, h'⟩ | ⟨b, hb, h'⟩)
    · exact .suffix hs hle h'
    · exact .grown h hb h'

theorem Refuses.growths_congr {q : Question} {r : Refusal} (h : Refuses bodies input q r)
    {i : Invocation} {suffixes : List Suffix} {b c : Branch Derivation}
    (hq : q = .growths i suffixes b) (hstop : b.stop = c.stop) :
    Refuses bodies input (.growths i suffixes c) r := by
  induction h generalizing b c with
  | suffix hs hle h =>
      cases hq
      exact .suffix hs hle (hstop ▸ h)
  | @grown _ _ operand _ first _ hfirst hd _ ih =>
      cases hq
      have halike : (lengthened bodies input i suffixes operand).map stops =
          (lengthened bodies input i suffixes c).map stops :=
        (growths_unfolds i suffixes).alike operand c hstop
      rw [hfirst, Option.map_some] at halike
      obtain ⟨first, hfirst', hstops⟩ := Option.map_eq_some_iff.mp halike.symm
      obtain ⟨e, he, hstop'⟩ := mem_stops.mp (hstops ▸ mem_stops_of_mem hd)
      exact .grown hfirst' he (ih rfl hstop'.symm)
  | _ => cases hq

/-- What is refused by growing depends on the place of the match only. -/
theorem refused_growths_congr {i : Invocation} {suffixes : List Suffix} {b c : Branch Derivation}
    (hstop : b.stop = c.stop) :
    refused bodies input (.growths i suffixes b) = refused bodies input (.growths i suffixes c) :=
  Set.ext fun _ => ⟨fun h => h.growths_congr rfl hstop, fun h => h.growths_congr rfl hstop.symm⟩

theorem refused_absent {i : Invocation} (h : bodies[i.rule.toNat]? = none) :
    refused bodies input (.enumerate i) = ∅ := by
  ext r
  refine ⟨fun hr => ?_, nofun⟩
  cases hr with
  | plain hbody _ => cases h.symm.trans hbody
  | primary hbody _ => cases h.symm.trans hbody
  | growing hbody _ _ _ => cases h.symm.trans hbody

theorem refused_plain {i : Invocation} {body : ParseExpr}
    (h : bodies[i.rule.toNat]? = some (.plain body)) :
    refused bodies input (.enumerate i) = refused bodies input (.ways body i.start) := by
  ext r
  refine ⟨fun hr => ?_, .plain h⟩
  cases hr with
  | plain hbody hr =>
      cases h.symm.trans hbody
      exact hr
  | primary hbody _ => cases h.symm.trans hbody
  | growing hbody _ _ _ => cases h.symm.trans hbody

/-- Growing starts where the primary ends, whatever the children of the seed. -/
theorem refused_leftRecursive {i : Invocation} {primary : ParseExpr} {suffixes : List Suffix}
    (h : bodies[i.rule.toNat]? = some (.leftRecursive primary suffixes)) :
    refused bodies input (.enumerate i) =
      refused bodies input (.ways primary i.start) ∪
        refusedBehind (ways bodies input primary i.start) fun j =>
          refused bodies input (.growths i suffixes ⟨j, default⟩) := by
  ext r
  constructor
  · intro hr
    cases hr with
    | plain hbody _ => cases h.symm.trans hbody
    | primary hbody hr =>
        cases h.symm.trans hbody
        exact .inl hr
    | growing hbody hseeds hw hr =>
        cases h.symm.trans hbody
        exact .inr ⟨_, hseeds, _, mem_stops_of_mem hw, hr.growths_congr rfl rfl⟩
  · rintro (hr | ⟨seeds, hseeds, j, hj, hr⟩)
    · exact .primary h hr
    · obtain ⟨w, hw, rfl⟩ := mem_stops.mp hj
      exact .growing h hseeds hw (hr.growths_congr rfl rfl)

end Equations

/-! ## Behind the first ways -/

section Behind

variable {α : Type} {f : α → List Derivation} {full : Option (List Way)} {found : List (Branch α)}

theorem mem_refusedBehind_some {all : List Way} {refusals : Nat → Set Refusal} {r : Refusal} :
    r ∈ refusedBehind (some all) refusals ↔ ∃ j ∈ stops all, r ∈ refusals j :=
  ⟨fun ⟨_, h, hr⟩ => Option.some.inj h ▸ hr, fun hr => ⟨all, rfl, hr⟩⟩

/-- Behind the first ways the same is refused as behind all ways. -/
theorem refusedBehind_firsts (h : FirstsOf f full found) (refusals : Nat → Set Refusal) :
    refusedBehind full refusals = ⋃ b ∈ found, refusals b.stop := by
  obtain ⟨all, rfl, hsame⟩ := h
  ext r
  simp only [mem_refusedBehind_some, Set.mem_iUnion, exists_prop]
  constructor
  · rintro ⟨j, hj, hr⟩
    obtain ⟨_, hmem, rfl⟩ := mem_stops.mp (hsame.mem_stops.mpr hj)
    obtain ⟨b, hb, rfl⟩ := List.mem_map.mp hmem
    exact ⟨b, hb, hr⟩
  · rintro ⟨b, hb, hr⟩
    exact ⟨b.stop, hsame.mem_stops.mp (mem_stops_of_mem (List.mem_map_of_mem hb)), hr⟩

theorem refusedBehind_onward (next : Nat → Option (List Way)) (w : Way)
    (refusals : Nat → Set Refusal) :
    refusedBehind (onward next w) refusals = refusedBehind (next w.stop) refusals := by
  have hstops : ∀ found : List Way, stops (found.map w.then) = stops found := fun found => by
    simp [stops, Function.comp_def]
  rw [onward_eq]
  cases next w.stop with
  | none => rfl
  | some found =>
      ext r
      rw [Option.map_some, mem_refusedBehind_some, mem_refusedBehind_some, hstops]

theorem refusedBehind_spread {g : Way → Option (List Way)} {items all : List Way}
    (h : spread g items = some all) (refusals : Nat → Set Refusal) :
    refusedBehind (spread g items) refusals = ⋃ w ∈ items, refusedBehind (g w) refusals := by
  ext r
  simp only [Set.mem_iUnion, exists_prop]
  constructor
  · rintro ⟨_, h, j, hj, hr⟩
    obtain ⟨w, hw, ys, hys, hj⟩ := (mem_stops_spread h).mp hj
    exact ⟨w, hw, ys, hys, j, hj, hr⟩
  · rintro ⟨w, hw, ys, hys, j, hj, hr⟩
    exact ⟨all, h, j, (mem_stops_spread h).mpr ⟨w, hw, ys, hys, hj⟩, hr⟩

end Behind

end GrammarEngine.Parser
