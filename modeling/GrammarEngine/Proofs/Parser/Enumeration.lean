import GrammarEngine.Proofs.Search.Firsts
import GrammarEngine.Proofs.Search.Unfolding

/-!
# Plain backtracking

All ways to match an expression at a place can be listed without a memory and without dropping any:
earlier alternatives go before later ones, a greedy repetition lists more rounds before fewer and
one that is not greedy fewer before more, and a left-recursive rule lists longer growths before the
match that they grow from. A row of items goes through the ways of its first item in order, and for
each of them through all ways of the others. Rounds and growths that read nothing do not count.

Each list is put together from other lists. A list is there if it can be put together to some depth,
and it is not if the enumeration does not end, as for a rule that reaches itself without reading a
token.
-/
namespace GrammarEngine.Parser

open Branch

/-- The place at which a match ends, with its children in a row. -/
abbrev Way := Branch (List Derivation)

namespace Way

def empty (place : Nat) : Way := ⟨place, []⟩

def single (b : Branch Derivation) : Way := ⟨b.stop, [b.value]⟩

/-- The children of one way before those of another that continues it. -/
def «then» (w next : Way) : Way := ⟨next.stop, w.value ++ next.value⟩

/-- The match of an invocation with the children of a way. -/
def derivation (i : Invocation) (suffix : Option UInt32) (w : Way) : Branch Derivation :=
  ⟨w.stop, .rule i suffix w.stop w.value⟩

@[simp] theorem stop_then (w next : Way) : (w.then next).stop = next.stop := rfl

@[simp] theorem stop_derivation (i : Invocation) (suffix : Option UInt32) (w : Way) :
    (w.derivation i suffix).stop = w.stop := rfl

@[simp] theorem then_empty (w : Way) : w.then (empty w.stop) = w := by
  simp [Way.then, empty]

theorem then_assoc (u v w : Way) : (u.then v).then w = u.then (v.then w) := by
  simp [Way.then]

end Way

/-- The way to match one token. -/
def tokenWays (input : Array Token) (accepts : TokenType → Bool) (place : Nat) : List Way :=
  match input[place]? with
  | some t => if accepts t.type then [⟨place + 1, [.token place]⟩] else []
  | none => []

/-! ## Going on from a way -/

/-- A way with everything that goes on from its end. -/
def onward (next : Nat → Option (List Way)) (w : Way) : Option (List Way) := do
  let more ← next w.stop
  return more.map w.then

/-- Only what reads something. -/
def longer (next : Nat → Option (List Way)) (place : Nat) : Option (List Way) := do
  let found ← next place
  return found.filter fun w => place < w.stop

section Onward

variable {next more : Nat → Option (List Way)}

theorem onward_eq (next : Nat → Option (List Way)) (w : Way) :
    onward next w = (next w.stop).map (List.map w.then) := by
  rw [onward]
  cases next w.stop <;> rfl

theorem onward_empty (next : Nat → Option (List Way)) (place : Nat) :
    onward next (Way.empty place) = next place := by
  have hself : List.map (Way.empty place).then = id := funext fun found => List.map_id found
  rw [onward_eq, hself, Option.map_id]
  rfl

/-- Where a way goes to depends on its end only. -/
theorem onward_alike (v w : Way) (h : v.stop = w.stop) :
    (onward next v).map stops = (onward next w).map stops := by
  have hstops : ∀ u : Way, stops ∘ List.map u.then = stops := by
    intro u
    funext found
    simp [stops, Function.comp_def]
  rw [onward_eq, onward_eq, Option.map_map, Option.map_map, hstops, hstops, h]

theorem onward_longer (w : Way) :
    onward (longer next) w = do return (← onward next w).filter fun v => w.stop < v.stop := by
  unfold onward longer
  cases next w.stop with
  | none => rfl
  | some found =>
      simp only [Option.bind_eq_bind, Option.bind_some, Option.pure_def, List.filter_map]
      rfl

/-- What goes on by reading something is longer. -/
theorem mem_onward_longer {w : Way} {found : List Way} (h : onward (longer next) w = some found) :
    ∀ d ∈ found, w.stop < d.stop := by
  rw [onward_longer] at h
  obtain ⟨all, -, h⟩ := Option.bind_eq_some_iff.mp h
  obtain rfl := Option.some.inj h
  intro d hd
  simpa using (List.mem_filter.mp hd).2

/-- Going on twice is going on by what goes on. -/
theorem onward_spread (w : Way) :
    onward (fun place => next place >>= spread (onward more)) w =
      onward next w >>= spread (onward more) := by
  have hthen : ∀ v : Way, (onward more v).map (List.map w.then) = onward more (w.then v) := by
    intro v
    have hassoc : List.map w.then ∘ List.map v.then = List.map (w.then v).then := by
      funext found
      simp [Function.comp_def, Way.then_assoc]
    rw [onward_eq, onward_eq, Option.map_map, hassoc, Way.stop_then]
  rw [onward_eq, onward_eq]
  cases next w.stop with
  | none => rfl
  | some found =>
      change (spread (onward more) found).map (List.map w.then) =
        spread (onward more) (found.map w.then)
      rw [map_spread, spread_map]
      simp only [hthen]

end Onward

/-! ## Lists -/

/-- What is listed: the ways of an expression, of a row of items and of any number of rounds, what a
match grows to, and the matches of an invocation. -/
inductive Question where
  | ways (e : ParseExpr) (place : Nat)
  | rowWays (items : List ParseExpr) (place : Nat)
  | rounds (body : ParseExpr) (greedy : Bool) (place : Nat)
  | growths (i : Invocation) (suffixes : List Suffix) (operand : Branch Derivation)
  | enumerate (i : Invocation)

@[reducible] def Question.Item : Question → Type
  | ways .. => Way
  | rowWays .. => Way
  | rounds .. => Way
  | growths .. => Branch Derivation
  | enumerate .. => Branch Derivation

/-- The lists that are there. -/
abbrev Lists := (q : Question) → Option (List q.Item)

/-- The matches to which a match grows by one suffix. -/
def lengthenedBy (ways : ParseExpr → Nat → Option (List Way)) (i : Invocation)
    (suffixes : List Suffix) (operand : Branch Derivation) : Option (List (Branch Derivation)) :=
  spread (fun s => do
    let found ← onward (longer (ways s.body)) (Way.single operand)
    return found.map (Way.derivation i (some s.precedence)))
    (suffixes.filter fun s => i.precedence ≤ s.precedence)

/-- The matches of a body. -/
def bodyMatches (known : Lists) (i : Invocation) : RuleBody → Option (List (Branch Derivation))
  | .plain body => do
    let found ← known (.ways body i.start)
    return found.map (Way.derivation i none)
  | .leftRecursive primary suffixes => do
    let seeds ← known (.ways primary i.start)
    spread (fun w => known (.growths i suffixes (w.derivation i none))) seeds

/-- How a list is put together from others. -/
def compose (bodies : Array RuleBody) (input : Array Token) (known : Lists) : Lists
  | .ways .empty place => some [Way.empty place]
  | .ways (.token t) place => some (tokenWays input (fun u => u == t) place)
  | .ways (.notTokens ts) place =>
    some (tokenWays input (fun u => u != TokenType.eof && !ts.contains u) place)
  | .ways .anyToken place => some (tokenWays input (fun u => u != TokenType.eof) place)
  | .ways (.rule index precedence) place => do
    let found ← known (.enumerate ⟨index, precedence, place⟩)
    return found.map Way.single
  | .ways (.seq items) place => known (.rowWays items place)
  | .ways (.choice alternatives) place => spread (fun e => known (.ways e place)) alternatives
  | .ways (.optional body greedy) place => do
    let found ← known (.ways body place)
    return placed greedy (Way.empty place) found
  | .ways (.star body greedy) place => known (.rounds body greedy place)
  | .ways (.plus body greedy) place => do
    let first ← known (.ways body place)
    spread (onward fun stop => known (.rounds body greedy stop)) first
  | .rowWays [] place => some [Way.empty place]
  | .rowWays (e :: rest) place => do
    let first ← known (.ways e place)
    spread (onward fun stop => known (.rowWays rest stop)) first
  | .rounds body greedy place => do
    let once ← longer (fun start => known (.ways body start)) place
    let found ← spread (onward fun stop => known (.rounds body greedy stop)) once
    return placed greedy (Way.empty place) found
  | .growths i suffixes operand => do
    let once ← lengthenedBy (fun e start => known (.ways e start)) i suffixes operand
    let found ← spread (fun b => known (.growths i suffixes b)) once
    return placed true operand found
  | .enumerate i =>
    match bodies[i.rule.toNat]? with
    | none => some []
    | some body => bodyMatches known i body

/-- The lists that can be put together to a depth. -/
def listsWithin (bodies : Array RuleBody) (input : Array Token) : Nat → Lists
  | 0 => fun _ => none
  | depth + 1 => compose bodies input (listsWithin bodies input depth)

section Limits

variable {bodies : Array RuleBody} {input : Array Token}

theorem isLimit_onward {g : Nat → Nat → Option (List Way)} {h : Nat → Option (List Way)}
    (hg : ∀ place, IsLimit (fun n => g n place) (h place)) (w : Way) :
    IsLimit (fun n => onward (g n) w) (onward h w) :=
  (hg w.stop).bind fun found => .const (some (found.map w.then))

theorem isLimit_longer {g : Nat → Nat → Option (List Way)} {h : Nat → Option (List Way)}
    (hg : ∀ place, IsLimit (fun n => g n place) (h place)) (place : Nat) :
    IsLimit (fun n => longer (g n) place) (longer h place) :=
  (hg place).bind fun found => .const (some (found.filter fun w => place < w.stop))

theorem isLimit_lengthenedBy {g : Nat → ParseExpr → Nat → Option (List Way)}
    {h : ParseExpr → Nat → Option (List Way)}
    (hg : ∀ e place, IsLimit (fun n => g n e place) (h e place)) (i : Invocation)
    (suffixes : List Suffix) (operand : Branch Derivation) :
    IsLimit (fun n => lengthenedBy (g n) i suffixes operand)
      (lengthenedBy h i suffixes operand) := by
  refine IsLimit.spread (fun s => ?_) (suffixes.filter fun s => i.precedence ≤ s.precedence)
  refine (isLimit_onward (isLimit_longer (hg s.body)) (Way.single operand)).bind fun found => ?_
  exact .const (some (found.map (Way.derivation i (some s.precedence))))

theorem isLimit_bodyMatches {x : Nat → Lists} {known : Lists}
    (h : ∀ q, IsLimit (fun n => x n q) (known q)) (i : Invocation) : ∀ body,
    IsLimit (fun n => bodyMatches (x n) i body) (bodyMatches known i body)
  | .plain body => (h (.ways body i.start)).bind fun _ => .const _
  | .leftRecursive primary suffixes => (h (.ways primary i.start)).bind
      (.spread fun w => h (.growths i suffixes (w.derivation i none)))

/-- What is put together from limits is the limit. -/
theorem isLimit_compose {x : Nat → Lists} {known : Lists}
    (h : ∀ q, IsLimit (fun n => x n q) (known q)) : ∀ q,
    IsLimit (fun n => compose bodies input (x n) q) (compose bodies input known q)
  | .ways .empty _ => .const _
  | .ways (.token _) _ => .const _
  | .ways (.notTokens _) _ => .const _
  | .ways .anyToken _ => .const _
  | .ways (.rule index precedence) place => (h (.enumerate ⟨index, precedence, place⟩)).bind
      fun _ => .const _
  | .ways (.seq items) place => h (.rowWays items place)
  | .ways (.choice alternatives) place => .spread (fun e => h (.ways e place)) alternatives
  | .ways (.optional body _) place => (h (.ways body place)).bind fun _ => .const _
  | .ways (.star body greedy) place => h (.rounds body greedy place)
  | .ways (.plus body greedy) place => (h (.ways body place)).bind
      (.spread (isLimit_onward fun stop => h (.rounds body greedy stop)))
  | .rowWays [] _ => .const _
  | .rowWays (e :: rest) place => (h (.ways e place)).bind
      (.spread (isLimit_onward fun stop => h (.rowWays rest stop)))
  | .rounds body greedy place => by
      refine (isLimit_longer (fun start => h (.ways body start)) place).bind fun once => ?_
      exact (IsLimit.spread (isLimit_onward fun stop => h (.rounds body greedy stop)) once).bind
        fun _ => .const _
  | .growths i suffixes operand => by
      refine (isLimit_lengthenedBy (fun e start => h (.ways e start)) i suffixes operand).bind
        fun once => ?_
      exact (IsLimit.spread (fun b => h (.growths i suffixes b)) once).bind fun _ => .const _
  | .enumerate i => by
      simp only [compose]
      cases bodies[i.rule.toNat]? with
      | none => exact .const _
      | some body => exact isLimit_bodyMatches h i body

/-- What is put together is kept if what it is put together from is. -/
theorem compose_keeps {known more : Lists}
    (h : ∀ q found, known q = some found → more q = some found)
    {q : Question} {found : List q.Item} (hfound : compose bodies input known q = some found) :
    compose bodies input more q = some found :=
  (isLimit_compose (x := fun n q => Nat.casesOn n (known q) fun _ => more q)
    (fun q => .step (h q)) q).sound 0 found hfound

theorem listsWithin_succ {depth : Nat} {q : Question} {found : List q.Item}
    (h : listsWithin bodies input depth q = some found) :
    listsWithin bodies input (depth + 1) q = some found := by
  induction depth generalizing q with
  | zero => cases h
  | succ depth ih => exact compose_keeps (fun _ _ => ih) h

variable (bodies input)

theorem exists_isLimit_lists (q : Question) :
    ∃ found, IsLimit (fun depth => listsWithin bodies input depth q) found :=
  exists_isLimit fun _ _ => listsWithin_succ

/-- The lists that can be put together to some depth. -/
noncomputable def lists : Lists := fun q => (exists_isLimit_lists bodies input q).choose

theorem isLimit_lists (q : Question) :
    IsLimit (fun depth => listsWithin bodies input depth q) (lists bodies input q) :=
  (exists_isLimit_lists bodies input q).choose_spec

theorem lists_eq (q : Question) :
    lists bodies input q = compose bodies input (lists bodies input) q :=
  (isLimit_lists bodies input q).tail.unique (isLimit_compose (isLimit_lists bodies input) q)

/-- The ways in which an expression matches at a place. -/
noncomputable def ways (e : ParseExpr) (place : Nat) : Option (List Way) :=
  lists bodies input (.ways e place)

/-- The ways in which items match one after the other. -/
noncomputable def rowWays (items : List ParseExpr) (place : Nat) : Option (List Way) :=
  lists bodies input (.rowWays items place)

/-- The ways in which any number of rounds match that read something each. -/
noncomputable def rounds (body : ParseExpr) (greedy : Bool) (place : Nat) : Option (List Way) :=
  lists bodies input (.rounds body greedy place)

/-- What a match grows to by admitted suffixes that read something each, and the match itself. -/
noncomputable def growths (i : Invocation) (suffixes : List Suffix)
    (operand : Branch Derivation) : Option (List (Branch Derivation)) :=
  lists bodies input (.growths i suffixes operand)

/-- The matches to which a match grows by one suffix. -/
noncomputable def lengthened (i : Invocation) (suffixes : List Suffix)
    (operand : Branch Derivation) : Option (List (Branch Derivation)) :=
  lengthenedBy (ways bodies input) i suffixes operand

/-- The matches of an invocation. -/
noncomputable def enumerate (i : Invocation) : Option (List (Branch Derivation)) :=
  lists bodies input (.enumerate i)

end Limits

/-! ## Equations -/

section Equations

variable {bodies : Array RuleBody} {input : Array Token}

/-- Plain backtracking lists these matches of an invocation, if it goes deep enough. -/
def Enumerates (bodies : Array RuleBody) (input : Array Token) (i : Invocation)
    (all : List (Branch Derivation)) : Prop :=
  ∃ depth, listsWithin bodies input depth (.enumerate i) = some all

theorem enumerate_eq_some_iff {i : Invocation} {all : List (Branch Derivation)} :
    enumerate bodies input i = some all ↔ Enumerates bodies input i all := by
  have hlimit := isLimit_lists bodies input (.enumerate i)
  refine ⟨fun h => ?_, fun ⟨depth, h⟩ => hlimit.sound depth all h⟩
  obtain ⟨depth, hdepth⟩ := hlimit.reached all h
  exact ⟨depth, hdepth depth (Nat.le_refl depth)⟩

theorem Enumerates.unique {i : Invocation} {all others : List (Branch Derivation)}
    (h : Enumerates bodies input i all) (h' : Enumerates bodies input i others) : all = others :=
  Option.some.inj ((enumerate_eq_some_iff.mpr h).symm.trans (enumerate_eq_some_iff.mpr h'))

theorem ways_empty (place : Nat) : ways bodies input .empty place = some [Way.empty place] :=
  lists_eq ..

theorem ways_token (t : TokenType) (place : Nat) :
    ways bodies input (.token t) place = some (tokenWays input (fun u => u == t) place) :=
  lists_eq ..

theorem ways_notTokens (ts : List TokenType) (place : Nat) :
    ways bodies input (.notTokens ts) place =
      some (tokenWays input (fun u => u != TokenType.eof && !ts.contains u) place) :=
  lists_eq ..

theorem ways_anyToken (place : Nat) :
    ways bodies input .anyToken place =
      some (tokenWays input (fun u => u != TokenType.eof) place) :=
  lists_eq ..

theorem ways_rule (index : UInt32) (precedence : UInt32) (place : Nat) :
    ways bodies input (.rule index precedence) place = do
      let found ← enumerate bodies input ⟨index, precedence, place⟩
      return found.map Way.single :=
  lists_eq ..

theorem ways_seq (items : List ParseExpr) (place : Nat) :
    ways bodies input (.seq items) place = rowWays bodies input items place :=
  lists_eq ..

theorem ways_choice (alternatives : List ParseExpr) (place : Nat) :
    ways bodies input (.choice alternatives) place =
      spread (fun e => ways bodies input e place) alternatives :=
  lists_eq ..

theorem ways_optional (body : ParseExpr) (greedy : Bool) (place : Nat) :
    ways bodies input (.optional body greedy) place = do
      let found ← ways bodies input body place
      return placed greedy (Way.empty place) found :=
  lists_eq ..

theorem ways_star (body : ParseExpr) (greedy : Bool) (place : Nat) :
    ways bodies input (.star body greedy) place = rounds bodies input body greedy place :=
  lists_eq ..

theorem ways_plus (body : ParseExpr) (greedy : Bool) (place : Nat) :
    ways bodies input (.plus body greedy) place =
      ways bodies input body place >>= spread (onward (rounds bodies input body greedy)) :=
  lists_eq ..

theorem rowWays_nil (place : Nat) : rowWays bodies input [] place = some [Way.empty place] :=
  lists_eq ..

theorem rowWays_cons (e : ParseExpr) (rest : List ParseExpr) (place : Nat) :
    rowWays bodies input (e :: rest) place =
      ways bodies input e place >>= spread (onward (rowWays bodies input rest)) :=
  lists_eq ..

theorem rounds_eq (body : ParseExpr) (greedy : Bool) (place : Nat) :
    rounds bodies input body greedy place = do
      let once ← longer (ways bodies input body) place
      let found ← spread (onward (rounds bodies input body greedy)) once
      return placed greedy (Way.empty place) found :=
  lists_eq ..

theorem growths_eq (i : Invocation) (suffixes : List Suffix) (operand : Branch Derivation) :
    growths bodies input i suffixes operand = do
      let once ← lengthened bodies input i suffixes operand
      let found ← spread (growths bodies input i suffixes) once
      return placed true operand found :=
  lists_eq ..

theorem enumerate_absent {i : Invocation} (h : bodies[i.rule.toNat]? = none) :
    enumerate bodies input i = some [] := by
  rw [enumerate, lists_eq]
  simp only [compose, h]

theorem enumerate_plain {i : Invocation} {body : ParseExpr}
    (h : bodies[i.rule.toNat]? = some (.plain body)) :
    enumerate bodies input i = do
      let found ← ways bodies input body i.start
      return found.map (Way.derivation i none) := by
  rw [enumerate, lists_eq]
  simp only [compose, h]
  rfl

theorem enumerate_leftRecursive {i : Invocation} {primary : ParseExpr} {suffixes : List Suffix}
    (h : bodies[i.rule.toNat]? = some (.leftRecursive primary suffixes)) :
    enumerate bodies input i = ways bodies input primary i.start >>=
      spread (fun w => growths bodies input i suffixes (w.derivation i none)) := by
  rw [enumerate, lists_eq]
  simp only [compose, h]
  rfl

/-! ## Reaching on -/

/-- Nothing follows a row without items. -/
theorem spread_rowWays_nil (found : List Way) :
    spread (onward (rowWays bodies input [])) found = some found := by
  have hself : ∀ w ∈ found, onward (rowWays bodies input []) w = some [w] := by
    intro w _
    rw [onward_eq, rowWays_nil, Option.map_some, List.map_singleton, Way.then_empty]
  rw [spread_eq_some hself, List.flatMap_singleton']

/-- The other items of a row follow its first item. -/
theorem spread_rowWays_cons (e : ParseExpr) (rest : List ParseExpr) (found : List Way) :
    spread (onward (rowWays bodies input (e :: rest))) found =
      spread (onward (ways bodies input e)) found >>=
        spread (onward (rowWays bodies input rest)) := by
  have hsteps : onward (rowWays bodies input (e :: rest)) = fun w =>
      onward (ways bodies input e) w >>= spread (onward (rowWays bodies input rest)) := by
    funext w
    rw [← onward_spread, ← funext (rowWays_cons e rest)]
  rw [hsteps, spread_spread]

/-- All that is reached by rounds is what is reached by one round after the other. -/
theorem rounds_unfolds (body : ParseExpr) (greedy : Bool) :
    Search.Unfolds greedy (onward (longer (ways bodies input body)))
      (onward (rounds bodies input body greedy)) where
  all_eq (w : Way) := by
    have hplaced : ∀ found : List Way, (placed greedy (Way.empty w.stop) found).map w.then =
        placed greedy w (found.map w.then) := by
      intro found
      cases greedy <;> simp [placed]
    rw [← bind_assoc, ← onward_spread, onward_eq, onward_eq, rounds_eq, ← bind_assoc]
    cases longer (ways bodies input body) w.stop >>=
        spread (onward (rounds bodies input body greedy)) with
    | none => rfl
    | some found => exact congrArg some (hplaced found)
  longer w following h := mem_onward_longer h
  alike := onward_alike

theorem map_stops_bind_map {α β : Type} {f : Branch α → Branch β}
    {found : Option (List (Branch α))} (hf : ∀ b, (f b).stop = b.stop) :
    (do return (← found).map f : Option (List (Branch β))).map stops = found.map stops := by
  cases found with
  | none => rfl
  | some bs => simp [stops, Function.comp_def, hf]

/-- All that is reached by growing is what is reached from a match by steps of one suffix. -/
theorem growths_unfolds (i : Invocation) (suffixes : List Suffix) :
    Search.Unfolds true (lengthened bodies input i suffixes)
      (growths bodies input i suffixes) where
  all_eq operand := growths_eq i suffixes operand
  longer operand following h d hd := by
    obtain ⟨s, -, found, hfound, hmem⟩ := (mem_stops_spread h).mp (mem_stops_of_mem hd)
    obtain ⟨more, hmore, hfound⟩ := Option.bind_eq_some_iff.mp hfound
    obtain rfl := Option.some.inj hfound
    obtain ⟨w, hw, hstop⟩ := mem_stops.mp hmem
    obtain ⟨v, hv, rfl⟩ := List.mem_map.mp hw
    exact hstop ▸ mem_onward_longer hmore v hv
  alike b c h := by
    refine map_stops_spread fun s => ?_
    have hstop := Way.stop_derivation i (some s.precedence)
    rw [map_stops_bind_map hstop, map_stops_bind_map hstop]
    exact onward_alike (Way.single b) (Way.single c) h

end Equations

end GrammarEngine.Parser
