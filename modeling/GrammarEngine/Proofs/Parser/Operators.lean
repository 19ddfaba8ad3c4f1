import GrammarEngine.Proofs.LeftRecursion.Language
import GrammarEngine.Proofs.Parser.Growth
import GrammarEngine.Proofs.Parser.Lowering
import GrammarEngine.Proofs.Parser.Operands
import GrammarEngine.Proofs.Parser.Preference

/-!
# Grouping of operators

The trees of programs whose rules come from the rewrite group operators by precedence. A suffix is
weaker than every operand on the right spine of what it extends, and an operand has grown only by
suffixes that its precedence admits. So a suffix never extends a match that ends with the operand of
a weaker suffix, nor one that ends with the operand of the same suffix if that one associates to the
right, in which case the operand has the precedence of the suffix.

Growth never looks at the precedences inside the match that it extends. That a suffix is weaker than
the operands on the right spine of its left operand comes from the order of the search: had an
operand admitted the suffix, the operand would have grown by it first, and the place where the
suffix ends would have been reached earlier, by a match that the suffix is a part of. It would not
have been visited again. So the invariant is about order. In the matches of an invocation, every
place up to which an operand on the right spine of a match could have grown comes before that match.
-/
namespace GrammarEngine.Parser

open Branch Search

/-! ## Precedence of operators -/

variable {bodies : Array RuleBody} {input : Array Token}

/-- A match of an invocation up to one place can be extended up to another. -/
def Extends (bodies : Array RuleBody) (input : Array Token) (k : Invocation) (j l : Nat) : Prop :=
  ∃ primary suffixes s ds, bodies[k.rule.toNat]? = some (.leftRecursive primary suffixes) ∧
    s ∈ suffixes ∧ k.precedence ≤ s.precedence ∧ j < l ∧ Spans bodies input (.expr s.body) j l ds

theorem Extends.lt {k : Invocation} {j l : Nat} (h : Extends bodies input k j l) : j < l := by
  obtain ⟨_, _, _, _, _, _, _, hlt, _⟩ := h
  exact hlt

/-- A place up to which an operand on the right spine of a match could have grown. -/
def Pending (bodies : Array RuleBody) (input : Array Token) (b : Branch Derivation) (j : Nat) :
    Prop :=
  ∃ k, Spine b.value k ∧ Extends bodies input k b.stop j

/-- The same for a match of a rule with the children of a row. -/
def PendingRow (bodies : Array RuleBody) (input : Array Token) (rule : UInt32) (r : Row) (j : Nat) :
    Prop :=
  ∃ k q stop children, r.value.toList.getLast? = some (.rule k q stop children) ∧ k.rule = rule ∧
    k.precedence ≠ 0 ∧
    (Extends bodies input k r.stop j ∨
      Pending bodies input ⟨r.stop, .rule k q stop children⟩ j)

theorem Pending.lt {b : Branch Derivation} {j : Nat} (h : Pending bodies input b j) :
    b.stop < j := by
  obtain ⟨k, -, h⟩ := h
  exact h.lt

theorem PendingRow.lt {rule : UInt32} {r : Row} {j : Nat} (h : PendingRow bodies input rule r j) :
    r.stop < j := by
  obtain ⟨k, q, stop, children, -, -, -, h | h⟩ := h
  · exact h.lt
  · exact h.lt

theorem pendingRow_of_derivation {i : Invocation} {q : Option UInt32} {r : Row} {j : Nat}
    (h : Pending bodies input (derivation i q r) j) : PendingRow bodies input i.rule r j := by
  obtain ⟨k, hspine, hextends⟩ := h
  cases hspine with
  | last hlast hrule hk => exact ⟨k, _, _, _, hlast, hrule, hk, .inl hextends⟩
  | deeper hlast hrule hk hspine =>
      exact ⟨_, _, _, _, hlast, hrule, hk, .inr ⟨k, hspine, hextends⟩⟩

/-- What goes in front of a row is not among its last children. -/
theorem pendingRow_of_then {rule : UInt32} {r n : Row} {j : Nat} (hn : n.value.toList ≠ [])
    (h : PendingRow bodies input rule (r.then n) j) : PendingRow bodies input rule n j := by
  obtain ⟨k, q, stop, children, hlast, hrest⟩ := h
  rw [toList_then, List.getLast?_append_of_ne_nil _ hn] at hlast
  exact ⟨k, q, stop, children, hlast, hrest⟩

/-- The matches of an invocation: exact and lawful, and in an order in which every place up to which
a match or an operand on its right spine could have grown comes before it. -/
structure Weighed (bodies : Array RuleBody) (input : Array Token) (i : Invocation)
    (found : List (Branch Derivation)) : Prop where
  recognizes : Recognizes bodies input Lawful i found
  ordered : Ordered (fun b j => Pending bodies input b j ∨ Extends bodies input i b.stop j) found

/-- Rows that match an expression exactly, in an order in which every place up to which an operand
at the end of a row could have grown comes before that row. -/
structure WeighedRows (bodies : Array RuleBody) (input : Array Token) (rule : UInt32)
    (e : ParseExpr) (place : Nat) (rows : List Row) : Prop where
  recognizes : ExactRows bodies input Lawful e place rows
  ordered : Ordered (PendingRow bodies input rule) rows

/-! ### Expressions -/

variable {I : SearchState → Prop} {inv : Invoker} {rule : UInt32}

/-- Answers about weighed matches are answers about exact ones. -/
theorem Answers.recognizes {phrase : Phrase} {place : Nat}
    (h : Answers bodies (Weighed bodies input) I inv phrase place) :
    Answers bodies (Recognizes bodies input Lawful) I inv phrase place :=
  fun k hk => (h k hk).mono fun _ hfound => hfound.recognizes

theorem eval_exact_of_weighed (hI : ∀ s place expected, I s → I (s.refuse place expected))
    {e : ParseExpr} {place : Nat}
    (h : Answers bodies (Weighed bodies input) I inv (.expr e) place) :
    Ensures I (eval input inv e place) (ExactRows bodies input Lawful e place) :=
  eval_exact hI lawful_token e place h.recognizes

/-- An unmarked expression leaves no operand at the end of a row. -/
theorem ordered_of_unmarked {e : ParseExpr} {place : Nat} {rows : List Row} (he : Unmarked e)
    (h : ExactRows bodies input Lawful e place rows) :
    Ordered (PendingRow bodies input rule) rows := by
  refine .of_forall_not fun r hr j hpending => ?_
  obtain ⟨k, q, stop, children, hlast, -, hk, -⟩ := hpending
  have hphrase : Phrase.Unmarked (.expr e) := he
  exact hk ((h.sound r hr).1.precedence_eq_zero hphrase (List.mem_of_getLast? hlast))

/-- The rows of an invocation keep the order of its matches. -/
theorem ordered_of_weighed {index precedence : UInt32} {place : Nat}
    {found : List (Branch Derivation)}
    (h : Weighed bodies input ⟨index, precedence, place⟩ found) :
    Ordered (PendingRow bodies input rule)
      (found.map fun b => Row.single b.stop b.value) := by
  refine h.ordered.map (fun b _ => rfl) fun b hb j hpending => ?_
  obtain ⟨k, q, stop, children, hlast, -, -, hpending⟩ := hpending
  have hvalue : b.value = .rule k q stop children := by
    simpa [Row.single] using hlast
  obtain ⟨_, _, hnode⟩ := (h.recognizes.sound b hb).1.rule_node
  rw [hvalue] at hnode
  cases hnode
  rcases hpending with hextends | hpending
  · exact .inr hextends
  · rw [← hvalue] at hpending
    exact .inl hpending

/-- Rows that are not empty keep their order behind another row. -/
theorem ordered_map_then {rows : List Row} (r : Row) (hrows : ∀ n ∈ rows, n.value.toList ≠ [])
    (h : Ordered (PendingRow bodies input rule) rows) :
    Ordered (PendingRow bodies input rule) (rows.map r.then) :=
  h.map (fun _ _ => rfl) fun n hn _ hpending => pendingRow_of_then (hrows n hn) hpending

theorem Leads.append_right {es es' : List ParseExpr} {r : UInt32}
    (h : Leads bodies (.row es) r) : Leads bodies (.row (es ++ es')) r := by
  induction es with
  | nil => cases h
  | cons e es ih =>
      cases h with
      | head _ he => exact .head _ he
      | tail hnull hes => exact .tail hnull (ih hes)

/-- What ends a row of expressions leads from its start if all before it match nothing. -/
theorem Leads.behind {es : List ParseExpr} {e : ParseExpr} {place : Nat} {ds : List Derivation}
    {r : UInt32} (h : Spans bodies input (.row es) place place ds)
    (he : Leads bodies (.expr e) r) : Leads bodies (.row (es ++ [e])) r := by
  induction es generalizing ds with
  | nil => exact .head [] he
  | cons e' es ih =>
      cases h with
      | cons hfirst hrest =>
          have hle := hfirst.le
          have hle' := hrest.le
          obtain rfl := Nat.le_antisymm hle hle'
          exact .tail hfirst.nullable (ih hrest)

theorem evalSeq_append (es es' : List ParseExpr) (rows : List Row) :
    evalSeq input inv (es ++ es') rows =
      evalSeq input inv es rows >>= fun mid => evalSeq input inv es' mid := by
  induction es generalizing rows with
  | nil => simp [evalSeq]
  | cons e es ih => simp [evalSeq, ih]

theorem extendAll_ordered {next : Nat → Search (List Row)} {rows : List Row}
    (h : ∀ r ∈ rows, Ensures I (next r.stop) fun found =>
      Ordered (PendingRow bodies input rule) found ∧ ∀ n ∈ found, n.value.toList ≠ []) :
    Ensures I (extendAll next rows) (Ordered (PendingRow bodies input rule)) := by
  have hextend : ∀ r ∈ rows,
      Ensures I (extend next r) (Ordered (PendingRow bodies input rule)) := fun r hr =>
    (h r hr).bind fun found hfound => .pure (ordered_map_then r hfound.2 hfound.1)
  refine (Ensures.mapM hextend).bind fun found hfound => ?_
  refine .pure (Ordered.flatten fun list hlist => ?_).distinct
  obtain ⟨r, -, hlist⟩ := hfound.1 list hlist
  exact hlist

theorem evalChoice_ordered {es : List ParseExpr} {place : Nat}
    (h : ∀ e ∈ es, Ensures I (eval input inv e place) (Ordered (PendingRow bodies input rule))) :
    Ensures I (evalChoice input inv es place) (Ordered (PendingRow bodies input rule)) := by
  induction es with
  | nil =>
      rw [evalChoice]
      exact .pure .nil
  | cons e es ih =>
      rw [evalChoice]
      refine (h e List.mem_cons_self).bind fun first hfirst => ?_
      refine (ih fun e' he => h e' (List.mem_cons_of_mem e he)).bind fun others hothers => ?_
      exact .pure (Ordered.append hfirst hothers)

/-- The induction is on the form of an expression whose operands stand at the ends of its parts. -/
theorem eval_ordered (hI : ∀ s place expected, I s → I (s.refuse place expected))
    {allowed : UInt32 → Prop} {e : ParseExpr} (he : Operated allowed e) {place : Nat}
    (h : Answers bodies (Weighed bodies input) I inv (.expr e) place) :
    Ensures I (eval input inv e place) (Ordered (PendingRow bodies input rule)) := by
  induction he with
  | unmarked he =>
      exact (eval_exact_of_weighed hI h).mono fun rows hrows => ordered_of_unmarked he hrows
  | @rule index precedence _ =>
      rw [eval]
      exact (h ⟨index, precedence, place⟩ (.inr ⟨rfl, .call index precedence⟩)).bind
        fun found hfound => .pure (ordered_of_weighed hfound)
  | @seq items index precedence _ _ =>
      rw [eval, evalSeq_append]
      have hitems : Answers bodies (Weighed bodies input) I inv (.row items) place :=
        h.of_le (Nat.le_refl _) fun r hr => .seq (hr.append_right)
      refine Ensures.bind (evalSeq_continues hI lawful_token items [Row.empty place] place
        hitems.recognizes (by simp) (by simp)) fun mid hmid => ?_
      simp only [evalSeq, bind_pure]
      refine extendAll_ordered fun m hm => ?_
      obtain ⟨r, hr, ds, -, hspans, -⟩ := hmid.sound m hm
      obtain rfl := List.mem_singleton.mp hr
      have hcall : Ensures I (inv ⟨index, precedence, m.stop⟩)
          (Weighed bodies input ⟨index, precedence, m.stop⟩) := by
        refine h _ ?_
        rcases Nat.lt_or_eq_of_le hspans.le with hlt | heq
        · exact .inl hlt
        · have hnone := hspans
          rw [← heq] at hnone
          exact .inr ⟨heq, .seq (Leads.behind hnone (.call index precedence))⟩
      rw [eval]
      refine hcall.bind fun found hfound => .pure ⟨ordered_of_weighed hfound, ?_⟩
      intro n hn
      obtain ⟨b, -, rfl⟩ := List.mem_map.mp hn
      simp [Row.single]
  | choice _ ih =>
      rw [eval]
      have halternatives := evalChoice_ordered fun e he =>
        ih e he (h.of_le (Nat.le_refl _) fun _ => .choice he)
      exact halternatives.bind fun rows hrows => .pure hrows.distinct

theorem eval_weighed (hI : ∀ s place expected, I s → I (s.refuse place expected))
    {allowed : UInt32 → Prop} {e : ParseExpr} (he : Operated allowed e) {place : Nat}
    (h : Answers bodies (Weighed bodies input) I inv (.expr e) place) :
    Ensures I (eval input inv e place) (WeighedRows bodies input rule e place) :=
  ((eval_exact_of_weighed hI h).and (eval_ordered hI he h)).mono fun _ hrows => ⟨hrows.1, hrows.2⟩

/-! ### Growth -/

variable {i : Invocation}

/-- Forests that read something are not empty. -/
theorem Spans.ne_nil {phrase : Phrase} {j k : Nat} {ds : List Derivation}
    (h : Spans bodies input phrase j k ds) (hlt : j < k) : ds ≠ [] := by
  rintro rfl
  have hleaves := congrArg List.length h.leavesAll_eq
  rw [List.length_range'] at hleaves
  simp only [leavesAll, List.length_nil] at hleaves
  omega

/-- The growths by one suffix keep the order of the matches of the suffix. -/
theorem round_ordered {next : Nat → Search (List Row)} {e : ParseExpr} {b : Branch Derivation}
    {q : UInt32} (h : Ensures I (next b.stop) (WeighedRows bodies input i.rule e b.stop)) :
    Ensures I (Search.round next (operandRow b)) fun rows =>
      Ordered (Pending bodies input) (rows.map (derivation i (some q))) := by
  refine Ensures.bind (P := fun rows => ∃ found, rows = found.map (operandRow b).then ∧
    WeighedRows bodies input i.rule e b.stop found)
    (h.bind fun found hfound => .pure ⟨found, rfl, hfound⟩) ?_
  rintro _ ⟨found, rfl, hfound⟩
  refine .pure ?_
  rw [List.filter_map, List.map_map]
  have hlonger := hfound.ordered.filter_longer b.stop fun n j hpending => hpending.lt
  refine hlonger.map (fun _ _ => rfl) fun n hn j hpending => ?_
  obtain ⟨hn, hlt⟩ := List.mem_filter.mp hn
  have hne := (hfound.recognizes.sound n hn).1.ne_nil (by simpa using hlt)
  exact pendingRow_of_then hne (pendingRow_of_derivation hpending)

/-- What follows a match without having been pending is lawful. -/
theorem lawful_follows {primary : ParseExpr} {suffixes : List Suffix} {b d : Branch Derivation}
    (hbody : bodies[i.rule.toNat]? = some (.leftRecursive primary suffixes))
    (hb : IsMatch bodies input i b) (hlawful : Lawful b.value)
    (hfollows : (growthCourse bodies input Lawful i suffixes (Pending bodies input)).follows b d)
    (hpending : ¬ Pending bodies input b d.stop) : Lawful d.value := by
  obtain ⟨s, hs, hle, hlt, ds, hspans, hd⟩ := hfollows
  rw [hd]
  refine lawful_growth hlawful hspans.2 fun k hk => ?_
  by_contra hweak
  refine hpending ⟨k, hk, primary, suffixes, s, ds, ?_, hs, UInt32.not_lt.mp hweak, hlt, hspans.1⟩
  obtain ⟨c, q, stop, children, hvalue, hrule⟩ := hk.rule_eq
  obtain ⟨_, _, hnode⟩ := hb.rule_node
  rw [hvalue] at hnode
  cases hnode
  rw [hrule]
  exact hbody

/-- All growths that are visited are lawful. -/
theorem lawful_reached {primary : ParseExpr} {suffixes : List Suffix} {seeds : List Row}
    (hbody : bodies[i.rule.toNat]? = some (.leftRecursive primary suffixes))
    (hseeds : ExactRows bodies input Lawful primary i.start seeds) {b : Branch Derivation}
    (h : (growthCourse bodies input Lawful i suffixes (Pending bodies input)).Reached
      (seeds.map (derivation i none)) b) : IsMatch bodies input i b ∧ Lawful b.value := by
  induction h with
  | root hroot =>
      obtain ⟨r, hr, rfl⟩ := List.mem_map.mp hroot
      have hr := hseeds.sound r hr
      exact ⟨IsMatch.seed hbody hr.1, lawful_seed hr.2⟩
  | step _ hfollows hpending ih =>
      exact ⟨ih.1.follows hbody hfollows, lawful_follows hbody ih.1 ih.2 hfollows hpending⟩

theorem weighed_plain {body : ParseExpr} {rows : List Row}
    (hbody : bodies[i.rule.toNat]? = some (.plain body)) (hunmarked : Unmarked body)
    (hrows : ExactRows bodies input Lawful body i.start rows) :
    Weighed bodies input i (rows.map (derivation i none)) := by
  refine ⟨recognizes_plain hbody hrows fun r hr => lawful_seed (hrows.sound r hr).2, ?_⟩
  have hordered : Ordered (PendingRow bodies input i.rule) rows :=
    ordered_of_unmarked hunmarked hrows
  refine hordered.map (fun _ _ => rfl) fun r _ j hpending => ?_
  rcases hpending with hpending | hextends
  · exact pendingRow_of_derivation hpending
  · obtain ⟨_, _, _, _, hleft, -⟩ := hextends
    rw [hbody] at hleft
    cases hleft

theorem weighed_explored {primary : ParseExpr} {suffixes : List Suffix} {seeds : List Row}
    {found : List (Branch Derivation)}
    (hbody : bodies[i.rule.toNat]? = some (.leftRecursive primary suffixes))
    (hseeds : ExactRows bodies input Lawful primary i.start seeds)
    (h : (growthCourse bodies input Lawful i suffixes (Pending bodies input)).Explored true
      (seeds.map (derivation i none)) found) : Weighed bodies input i found := by
  refine ⟨recognizes_explored hbody hseeds h fun b hb =>
    (lawful_reached hbody hseeds (h.reached b hb)).2, ?_⟩
  intro front b back hsplit j hj
  refine h.ordered rfl front b back hsplit j (hj.imp id ?_)
  intro ⟨_, _, s, ds, hleft, hs, hle, hlt, hspans⟩
  rw [hbody] at hleft
  cases hleft
  exact ⟨s, hs, hle, hlt, ds, hspans⟩

/-- The matches of every rewritten body are weighed if those of the invocations that it makes
are. -/
theorem weighed_hereditary
    (hrewritten : ∀ (n : Nat) (body : RuleBody), bodies[n]? = some body → Rewritten body) :
    Hereditary bodies input (Weighed bodies input) where
  absent i habsent := ⟨recognizes_absent habsent, .nil⟩
  body I inv i body hI h hbody := by
    cases body with
    | plain body =>
        exact (eval_exact_of_weighed hI (answers_plain h hbody)).bind fun rows hrows =>
          .pure (weighed_plain hbody (hrewritten _ _ hbody) hrows)
    | leftRecursive primary suffixes =>
        obtain ⟨hprimary, hsuffixes⟩ := hrewritten _ _ hbody
        have hseeds : Ensures I (eval input inv primary i.start)
            (WeighedRows bodies input i.rule primary i.start) :=
          eval_weighed hI hprimary (answers_primary h hbody)
        refine hseeds.bind fun seeds hseeds => ?_
        have hwithin : (growthCourse bodies input Lawful i suffixes (Pending bodies input)).Within
            (IsMatch bodies input i) input.size :=
          growthCourse_within i suffixes (fun _ _ hpending => hpending.lt)
            fun _ _ => IsMatch.follows hbody
        refine (visitAll_ensures hwithin (fun b hb => growth_offers fun s hs => ?_) (fun b hb => ?_)
          (hseeds.ordered.map (fun _ _ => rfl) fun _ _ _ => pendingRow_of_derivation)).mono
            fun found => weighed_explored hbody hseeds.recognizes
        · have hsuffix := answers_suffix h hbody hs hb
          exact (round_offers (eval_exact_of_weighed hI hsuffix)).and
            (round_ordered (eval_weighed hI (hsuffixes s hs) hsuffix))
        · obtain ⟨r, hr, rfl⟩ := List.mem_map.mp hb
          exact IsMatch.seed hbody (hseeds.recognizes.sound r hr).1

end GrammarEngine.Parser

/-! ## Grouping -/
namespace GrammarEngine.Parser

open Branch Search

variable {bodies : Array RuleBody} {input : Array Token}

/-- The law of precedence for a derivation and all its parts. -/
structure Grouped (d : Derivation) : Prop where
  spine : ∀ c q stop left rest, PartOf (.rule c (some q) stop (left :: rest)) d →
    ∀ k, Spine left k → q < k.precedence
  chain : ∀ c q stop children, PartOf (.rule c q stop children) d →
    ∀ p, GrownBy (.rule c q stop children) p → c.precedence ≤ p
  grouping : ∀ c q stop l p stop' children rest k r stop'' children',
    PartOf (.rule c (some q) stop (.rule l (some p) stop' children :: rest)) d →
    children.getLast? = some (.rule k r stop'' children') → k.rule = l.rule → k.precedence ≠ 0 →
    q ≤ p ∧ (k.precedence = p → q < p)

/-- The operand of a suffix is at most one above the suffix. -/
theorem Spans.operand_le
    (hrewritten : ∀ (n : Nat) (body : RuleBody), bodies[n]? = some body → Rewritten body)
    {i j stop stop' : Nat} {index precedence p : UInt32} {l k : Invocation} {r : Option UInt32}
    {children children' : List Derivation}
    (h : Spans bodies input (.rule index precedence) i j [.rule l (some p) stop children])
    (hlast : children.getLast? = some (.rule k r stop' children')) (hk : k.precedence ≠ 0) :
    k.precedence.toNat ≤ p.toNat + 1 := by
  cases h with
  | suffix hbody hs _ hlt _ hspans =>
      obtain ⟨-, hsuffixes⟩ := hrewritten _ _ hbody
      rw [List.getLast?_cons_of_ne_nil (hspans.ne_nil hlt)] at hlast
      exact hspans.operand_allowed (hsuffixes _ hs) hlast hk

theorem Weighed.grouped
    (hrewritten : ∀ (n : Nat) (body : RuleBody), bodies[n]? = some body → Rewritten body)
    {i : Invocation} {found : List (Branch Derivation)} (h : Weighed bodies input i found)
    {b : Branch Derivation} (hb : b ∈ found) : Grouped b.value := by
  obtain ⟨hspans, hlawful⟩ := h.recognizes.sound b hb
  have hlawful : Lawful b.value := hlawful b.value List.mem_cons_self
  refine ⟨hlawful, fun c q stop children hpart p hp => ?_, ?_⟩
  · exact Spans.grownBy_le hp (hspans.part List.mem_cons_self hpart)
  · intro c q stop l p stop' children rest k r stop'' children' hpart hlast hrule hk
    have hweak := hlawful c q stop _ rest hpart k (.last hlast hrule hk)
    have hinner : PartOf (.rule l (some p) stop' children) b.value :=
      PartOf.trans (.child List.mem_cons_self (.self _)) hpart
    have hle := (hspans.part List.mem_cons_self hinner).operand_le hrewritten hlast hk
    have hlt := UInt32.lt_iff_toNat_lt.mp hweak
    refine ⟨UInt32.le_iff_toNat_le.mpr (by omega), fun heq => ?_⟩
    exact heq ▸ hweak

/-- In every tree of a parse of a program whose rules come from the rewrite, suffixes extend only
what binds at least as tightly. -/
theorem parse_grouped (p : ParserProgram) (guarded : Guarded p.bodies)
    (rewritten : ∀ body ∈ p.bodies, FromRewrite body) (rule : String) (stream : TokenStream)
    (maxDepth : Nat) (r : ParseResult) (t : SyntaxTree)
    (hparse : p.parse rule stream maxDepth = .ok r) (hroot : r.root = some t) :
    ∃ index b rest s, p.ruleIndex? rule = some index ∧
      p.search stream.visible.toArray index (ParserProgram.clampDepth maxDepth) =
        .ok (b :: rest, s) ∧
      t = SyntaxTree.ofDerivation stream.visible.toArray b.value ∧
      Spans p.bodies stream.visible.toArray (.rule (UInt32.ofNat index) 0) 0 b.stop [b.value] ∧
      Grouped b.value := by
  have hrewritten : ∀ (n : Nat) (body : RuleBody), p.bodies[n]? = some body → Rewritten body :=
    fun n body h => (rewritten body (Array.mem_of_getElem? h)).rewritten
  cases hrule : p.ruleIndex? rule with
  | none =>
      rw [ParserProgram.parse, hrule] at hparse
      cases hparse
  | some index =>
      rcases parse_cases p stream maxDepth hrule with
        ⟨_, _, -, hfault⟩ | ⟨found, s, r', hrun, hparse', hroot'⟩
      · rw [hfault] at hparse
        cases hparse
      · rw [hparse'] at hparse
        obtain rfl := Except.ok.inj hparse
        have hfound := (of_run_invoke guarded (weighed_hereditary hrewritten) hrun).1
        cases found with
        | nil =>
            rw [hroot] at hroot'
            cases hroot'
        | cons b rest =>
            rw [hroot] at hroot'
            exact ⟨index, b, rest, s, rfl, hrun, Option.some.inj hroot',
              (hfound.recognizes.sound b List.mem_cons_self).1,
              hfound.grouped hrewritten List.mem_cons_self⟩

/-! ### An instance -/

/-- Names, powers and sums. Powers bind more tightly than sums and associate to the right. -/
def exprAlternatives : List Alternative :=
  [{ elements := [.token "NAME"] },
    { elements := [.rule "expr", .token "POWER", .rule "expr"], rightAssoc := true },
    { elements := [.rule "expr", .token "PLUS", .rule "expr"] }]

/-- The right operand of a power has the precedence of powers, that of a sum a higher one than
sums. -/
def exprSpec : ParserRuleSpec :=
  .leftRecursive "expr" (exprAlternatives.take 1)
    [⟨2, true, [.token "POWER", .ruleAt "expr" 2]⟩, ⟨1, false, [.token "PLUS", .ruleAt "expr" 2]⟩]

/-- The unit clause of the rule. -/
def exprClause : Sexpr :=
  let list (items : List Sexpr) : Sexpr := .list {} items
  let node (head : String) (args : List Sexpr) : Sexpr := list (.symbol {} head :: args)
  let tok (name : String) : Sexpr := node "tok" [.text {} name]
  let operand (precedence : Int) : Sexpr := node "invoke" [.text {} "expr", .int {} precedence]
  node "lrule" [.text {} "expr",
    node "primary" [node "alt" [tok "NAME"]],
    node "suffix" [.int {} 2, node "alt" [tok "POWER", operand 2]],
    node "suffix" [.int {} 1, node "alt" [tok "PLUS", operand 2]]]

def exprDeclared : ParserRuleBody :=
  .leftRecursive [[.token "NAME" {}]]
    [(2, [.token "POWER" {}, .invoke "expr" 2 {}]), (1, [.token "PLUS" {}, .invoke "expr" 2 {}])]

def exprScope : ParserDecl.Scope :=
  ⟨[⟨1, "NAME", none⟩, ⟨2, "POWER", none⟩, ⟨3, "PLUS", none⟩], none⟩

def exprBody : RuleBody :=
  .leftRecursive (.token 1) [⟨2, .seq [.token 2, .rule 0 2]⟩, ⟨1, .seq [.token 3, .rule 0 2]⟩]

theorem exprBody_fromRewrite : FromRewrite exprBody := by
  refine ⟨"expr", exprAlternatives, exprSpec, exprClause, exprDeclared, exprScope, ?_, ?_, ?_, ?_,
    ?_⟩
  · have hcommands : ∀ a ∈ exprAlternatives, a.commands = [] := by decide
    exact fun a ha => ⟨hcommands a ha, LeftRecursion.written_of_isSymbol (by decide) a ha⟩
  · rfl
  · rfl
  · rfl
  · exact ⟨[⟨"expr", {}, exprDeclared⟩], [⟨"expr", {}, exprDeclared⟩], rfl⟩

def exprParser : ParserProgram :=
  ⟨⟨"Expr", "ExprTokens", ["expr"], {}⟩, "Expr", #[exprBody], 0⟩

theorem exprParser_guarded : Guarded exprParser.bodies := guarded_of_inOrder rfl

/-- The tokens of `a + b ^ c ^ d + e`. -/
def exprTokens : TokenStream :=
  let symbol (type : TokenType) (text : String) (place : Nat) : Token :=
    ⟨type, defaultChannel, text, place, place + 1, {}, place⟩
  ⟨[symbol 1 "a" 0, symbol 3 "+" 1, symbol 1 "b" 2, symbol 2 "^" 3, symbol 1 "c" 4,
    symbol 2 "^" 5, symbol 1 "d" 6, symbol 3 "+" 7, symbol 1 "e" 8], []⟩

def exprTree : String :=
  "(expr (expr (expr a) + (expr (expr b) ^ (expr (expr c) ^ (expr d)))) + (expr e))"

theorem exprTree_listed : (listedResult? exprParser "expr" exprTokens 30).bind
    ParseResult.stringTree? = some exprTree := by
  decide +kernel

/-- Sums group to the left, and powers, which bind more tightly, to the right. -/
theorem expr_parse_grouped :
    Guarded exprParser.bodies ∧ (∀ body ∈ exprParser.bodies, FromRewrite body) ∧
      ∃ r t b, exprParser.parse "expr" exprTokens 64 = .ok r ∧ r.root = some t ∧
        r.stringTree? = some exprTree ∧
        t = SyntaxTree.ofDerivation exprTokens.visible.toArray b ∧ Grouped b := by
  have hrewritten : ∀ body ∈ exprParser.bodies, FromRewrite body := by
    intro body hbody
    obtain rfl : body = exprBody := by simpa [exprParser] using hbody
    exact exprBody_fromRewrite
  have hlinked : exprParser.Linked := ParserProgram.linked_of_isLinked rfl
  have hindex : ∀ (k : Nat) t, exprTokens.tokens[k]? = some t → t.index = k := by
    have hplaces : ∀ k : Fin exprTokens.tokens.length, exprTokens.tokens[k].index = k := by
      decide +kernel
    intro k t ht
    obtain ⟨hk, rfl⟩ := List.getElem?_eq_some_iff.mp ht
    exact hplaces ⟨k, hk⟩
  obtain ⟨r, hlisted, hshown⟩ := Option.bind_eq_some_iff.mp exprTree_listed
  have hparse : exprParser.parse "expr" exprTokens 64 = .ok r :=
    parse_of_listedResult? hlinked exprParser_guarded hindex (by decide +kernel) hlisted
  obtain ⟨t, ht, -⟩ := Option.map_eq_some_iff.mp hshown
  obtain ⟨_, b, _, _, -, -, htree, -, hgrouped⟩ :=
    parse_grouped exprParser exprParser_guarded hrewritten "expr" exprTokens 64 r t hparse ht
  exact ⟨exprParser_guarded, hrewritten, r, t, b.value, hparse, ht, hshown, htree, hgrouped⟩

end GrammarEngine.Parser
