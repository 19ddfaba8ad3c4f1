import GrammarEngine.Proofs.Notation.Forms
import GrammarEngine.Proofs.Unit.Marks

/-!
# Declared elements

What an element of an analysed rule declares once it has been written into a unit, and that reading
the written form gives this declaration. Places are left out on both sides.

An element is within a depth if its blocks nest no deeper, its ranges ascend and its precedences
stay below a limit. An element of a file is within the limit zero, with neither precedences nor
exclusions that were resolved. Every level of blocks is written as at most three lists, one for the
choice, one for the sequence and one for a repetition.
-/
namespace GrammarEngine

/-! ## Places -/

mutual
/-- An expression with all its places at the start of the text. -/
def UnitExpr.unplaced : UnitExpr → UnitExpr
  | .empty => .empty
  | .seq items => .seq (unplacedAll items)
  | .choice items => .choice (unplacedAll items)
  | .repeated kind isLazy body => .repeated kind isLazy body.unplaced
  | .literal text _ => .literal text {}
  | .ranges rs negated => .ranges rs negated
  | .any => .any
  | .ref name _ => .ref name {}
  | .token name _ => .token name {}
  | .notTokens names _ => .notTokens names {}
  | .eof => .eof
  | .invoke name precedence _ => .invoke name precedence {}

def UnitExpr.unplacedAll : List UnitExpr → List UnitExpr
  | [] => []
  | u :: rest => u.unplaced :: unplacedAll rest
end

theorem UnitExpr.unplacedAll_eq_map (us : List UnitExpr) :
    unplacedAll us = us.map unplaced := by
  induction us with
  | nil => rfl
  | cons u us ih => rw [unplacedAll, ih, List.map_cons]

/-! ## Images -/

/-- A row of expressions in one place. -/
def UnitExpr.sequenceOf : List UnitExpr → UnitExpr
  | [] => .empty
  | [u] => u
  | us => .seq us

/-- Expressions to choose from in one place. -/
def UnitExpr.choiceOf : List UnitExpr → UnitExpr
  | [u] => u
  | us => .choice us

def codeRange (r : Char × Char) : UInt32 × UInt32 := (r.1.val, r.2.val)

open UnitText in
mutual
/-- What an element declares in a rule of a lexer or of a parser. -/
def Element.declared (kind : RuleKind) : Element → UnitExpr
  | .literal text => .literal text {}
  | .token name => if kind = .lexer then .ref name {} else .token name {}
  | .rule name => .invoke name 0 {}
  | .ruleAt name precedence => .invoke name (.ofNat precedence) {}
  | .charSet ranges negated => .ranges (ranges.map codeRange) negated
  | .any => .any
  | .eof => .eof
  | .notTokens names => .notTokens names {}
  | .not members =>
    if kind = .lexer then .ranges ((memberRanges members).map codeRange) true
    else .notTokens (tokenNames members) {}
  | .block alternatives => .choiceOf (declaredBlocks kind alternatives)
  | .repeated e repetition greedy => .repeated repetition (!greedy) (e.declared kind)

def Element.declaredAll (kind : RuleKind) : List Element → List UnitExpr
  | [] => []
  | e :: rest => e.declared kind :: declaredAll kind rest

def Element.declaredBlock (kind : RuleKind) : AlternativeOf Element → UnitExpr
  | ⟨elements, _, _, _⟩ => .sequenceOf (declaredAll kind elements)

def Element.declaredBlocks (kind : RuleKind) : List (AlternativeOf Element) → List UnitExpr
  | [] => []
  | a :: rest => declaredBlock kind a :: declaredBlocks kind rest
end

theorem UnitExpr.unplaced_sequenceOf (us : List UnitExpr) :
    (sequenceOf us).unplaced = sequenceOf (us.map unplaced) := by
  match us with
  | [] => rfl
  | [u] => rfl
  | u :: v :: rest => exact congrArg UnitExpr.seq (unplacedAll_eq_map _)

theorem UnitExpr.unplaced_choiceOf (us : List UnitExpr) :
    (choiceOf us).unplaced = choiceOf (us.map unplaced) := by
  match us with
  | [] => rfl
  | [u] => rfl
  | u :: v :: rest => exact congrArg UnitExpr.choice (unplacedAll_eq_map _)

mutual
/-- What an element declares has no places. -/
theorem Element.unplaced_declared (kind : UnitText.RuleKind) : ∀ e : Element,
    (e.declared kind).unplaced = e.declared kind
  | .literal _ | .rule _ | .ruleAt _ _ | .charSet _ _ | .any | .eof | .notTokens _ => rfl
  | .token name => by
      rw [Element.declared]
      split <;> rfl
  | .not members => by
      rw [Element.declared]
      split <;> rfl
  | .block alternatives => by
      rw [Element.declared, UnitExpr.unplaced_choiceOf, unplaced_declaredBlocks kind alternatives]
  | .repeated e repetition greedy => by
      rw [Element.declared, UnitExpr.unplaced, unplaced_declared kind e]

theorem Element.unplaced_declaredAll (kind : UnitText.RuleKind) : ∀ es : List Element,
    (Element.declaredAll kind es).map UnitExpr.unplaced = Element.declaredAll kind es
  | [] => rfl
  | e :: rest => by
      rw [Element.declaredAll, List.map_cons, unplaced_declared kind e,
        unplaced_declaredAll kind rest]

theorem Element.unplaced_declaredBlock (kind : UnitText.RuleKind) : ∀ a : AlternativeOf Element,
    (Element.declaredBlock kind a).unplaced = Element.declaredBlock kind a
  | ⟨elements, _, _, _⟩ => by
      rw [Element.declaredBlock, UnitExpr.unplaced_sequenceOf, unplaced_declaredAll kind elements]

theorem Element.unplaced_declaredBlocks (kind : UnitText.RuleKind) :
    ∀ alternatives : List (AlternativeOf Element),
      (Element.declaredBlocks kind alternatives).map UnitExpr.unplaced =
        Element.declaredBlocks kind alternatives
  | [] => rfl
  | a :: rest => by
      rw [Element.declaredBlocks, List.map_cons, unplaced_declaredBlock kind a,
        unplaced_declaredBlocks kind rest]
end

/-! ## Elements that can be written -/

/-- An element that is no repetition itself. -/
abbrev Element.NotRepeated (e : Element) : Prop :=
  ∀ d kind greedy, e ≠ .repeated d kind greedy

/-- An element whose blocks nest within a depth, whose ranges ascend and whose precedences are
below a limit. -/
inductive Element.Within (limit : Nat) : Nat → Element → Prop
  | literal (depth : Nat) (text : String) : Within limit depth (.literal text)
  | token (depth : Nat) (name : String) : Within limit depth (.token name)
  | rule (depth : Nat) (name : String) : Within limit depth (.rule name)
  | ruleAt {depth precedence : Nat} (name : String) :
      precedence < limit → Within limit depth (.ruleAt name precedence)
  | charSet {depth : Nat} {ranges : List (Char × Char)} (negated : Bool) :
      (∀ r ∈ ranges, r.1 ≤ r.2) → Within limit depth (.charSet ranges negated)
  | any (depth : Nat) : Within limit depth .any
  | eof (depth : Nat) : Within limit depth .eof
  | not {depth : Nat} {members : List Element} :
      (∀ m ∈ members, Within limit depth m) → Within limit depth (.not members)
  | notTokens (depth : Nat) (names : List String) :
      0 < limit → Within limit depth (.notTokens names)
  | block {depth : Nat} {alternatives : List Alternative} :
      (∀ a ∈ alternatives, ∀ e ∈ a.elements, Within limit depth e) →
      Within limit (depth + 1) (.block alternatives)
  | repeated {depth : Nat} {e : Element} (kind : Repetition) (greedy : Bool) :
      Within limit depth e → e.NotRepeated →
      Within limit depth (.repeated e kind greedy)

theorem Element.Within.mono {limit limit' depth : Nat} {e : Element} (h : e.Within limit depth)
    (hle : limit ≤ limit') : e.Within limit' depth := by
  induction h with
  | literal depth text => exact .literal depth text
  | token depth name => exact .token depth name
  | rule depth name => exact .rule depth name
  | ruleAt name hlt => exact .ruleAt name (Nat.lt_of_lt_of_le hlt hle)
  | charSet negated hranges => exact .charSet negated hranges
  | any depth => exact .any depth
  | eof depth => exact .eof depth
  | «not» _ ih => exact .not ih
  | notTokens depth names hlt => exact .notTokens depth names (Nat.lt_of_lt_of_le hlt hle)
  | block _ ih => exact .block ih
  | repeated kind greedy _ hne ih => exact .repeated kind greedy ih hne

namespace UnitDecl

/-- The ranges that the members of an exclusion denote ascend. -/
theorem memberRanges_le {limit depth : Nat} {members : List Element}
    (h : ∀ m ∈ members, m.Within limit depth) :
    ∀ r ∈ UnitText.memberRanges members, r.1 ≤ r.2 := by
  intro r hr
  obtain ⟨m, hm, hr⟩ := List.mem_flatMap.mp hr
  cases h m hm with
  | charSet _ hranges => exact hranges r hr
  | literal =>
      obtain ⟨c, -, rfl⟩ := List.mem_map.mp hr
      exact Char.le_refl c
  | _ => simp at hr

/-! ## Reading lists of forms -/

/-- Forms that are read one by one. -/
theorem mapM_forms {α β γ : Type} (f : Sexpr → Reading β) {write : α → Form} (erase : β → γ)
    (image : α → γ) {ws : List Sexpr} {xs : List α} (hws : ws.map Sexpr.form = xs.map write)
    (h : ∀ x ∈ xs, ∀ w, w.form = write x → ∃ y, f w = .ok y ∧ erase y = image x) :
    ∃ ys, ws.mapM f = .ok ys ∧ ys.map erase = xs.map image := by
  induction xs generalizing ws with
  | nil =>
      obtain rfl := List.map_eq_nil_iff.mp hws
      exact ⟨[], rfl, rfl⟩
  | cons x xs ih =>
      obtain ⟨w, ws, rfl, hw, hrest⟩ := List.map_eq_cons_iff.mp hws
      obtain ⟨y, hy, himage⟩ := h x List.mem_cons_self w hw
      obtain ⟨ys, hys, himages⟩ := ih hrest fun x' hx' => h x' (List.mem_cons_of_mem x hx')
      refine ⟨y :: ys, ?_, by rw [List.map_cons, List.map_cons, himage, himages]⟩
      rw [List.mapM_cons, hy]
      simp [bind, Except.bind, hys, pure, Except.pure]

theorem mapM_stringOf {ws : List Sexpr} {names : List String}
    (h : ws.map Sexpr.form = names.map Form.text) : ws.mapM stringOf = .ok names := by
  obtain ⟨ys, hys, himage⟩ := mapM_forms stringOf id id h fun name _ w hw => by
    obtain ⟨p, rfl⟩ := form_eq_text hw
    exact ⟨name, rfl, rfl⟩
  rw [List.map_id, List.map_id] at himage
  exact himage ▸ hys

theorem toWord?_of_lt {n : Nat} (h : n < 2 ^ 32) : toWord? n = some (.ofNat n) := by
  rw [toWord?, if_pos (by omega), Int.toNat_natCast]

theorem toWord?_toNat (c : Char) : toWord? c.toNat = some c.val := by
  have h : toWord? c.val.toNat = some (.ofNat c.val.toNat) := toWord?_of_lt c.val.toNat_lt
  rw [UInt32.ofNat_toNat] at h
  exact h

theorem range_list {p q p₁ p₂ : Position} {low high : Int} {l h : UInt32}
    (hlow : toWord? low = some l) (hhigh : toWord? high = some h) (hle : l ≤ h) :
    range (.list p [.symbol q "range", .int p₁ low, .int p₂ high]) = .ok (l, h) := by
  have hfirst : intAt (.list p [.symbol q "range", .int p₁ low, .int p₂ high]) 0 "range start" =
      .ok low := rfl
  have hsecond : intAt (.list p [.symbol q "range", .int p₁ low, .int p₂ high]) 1 "range end" =
      .ok high := rfl
  unfold range
  simp only [hfirst, hsecond, hlow, hhigh, hle, if_true, bind, Except.bind]
  rfl

theorem range_form {r : Char × Char} (h : r.1 ≤ r.2) {w : Sexpr}
    (hw : w.form = UnitText.rangeForm r) : range w = .ok (codeRange r) := by
  obtain ⟨p, q, args, rfl, hargs⟩ := form_eq_node hw
  obtain ⟨low, rest, rfl, hlow, hrest⟩ := List.map_eq_cons_iff.mp hargs
  obtain ⟨high, rest, rfl, hhigh, hrest⟩ := List.map_eq_cons_iff.mp hrest
  obtain rfl := List.map_eq_nil_iff.mp hrest
  obtain ⟨_, rfl⟩ := form_eq_nat hlow
  obtain ⟨_, rfl⟩ := form_eq_nat hhigh
  have hle : r.1.val ≤ r.2.val := h
  exact range_list (toWord?_toNat r.1) (toWord?_toNat r.2) hle

theorem mapM_range {ranges : List (Char × Char)} (h : ∀ r ∈ ranges, r.1 ≤ r.2) {ws : List Sexpr}
    (hws : ws.map Sexpr.form = ranges.map UnitText.rangeForm) :
    ws.mapM range = .ok (ranges.map codeRange) := by
  obtain ⟨ys, hys, himage⟩ := mapM_forms range id codeRange hws fun r hr w hw =>
    ⟨codeRange r, range_form (h r hr) hw, rfl⟩
  rw [List.map_id] at himage
  exact himage ▸ hys

/-! ## Reading elements -/

open UnitText

theorem expr_set {ranges : List (Char × Char)} (h : ∀ r ∈ ranges, r.1 ≤ r.2) (negated : Bool)
    {w : Sexpr} (hw : w.form = setForm ranges negated) :
    expr w = .ok (.ranges (ranges.map codeRange) negated) := by
  obtain ⟨p, q, args, rfl, hargs⟩ := form_eq_node hw
  have hread := mapM_range h hargs
  have hexpr : ∀ head, head = (if negated then "nset" else "set") →
      expr (.list p (.symbol q head :: args)) =
        (args.mapM range).map fun found => .ranges found negated := by
    rintro _ rfl
    cases negated <;> rfl
  rw [hexpr _ rfl, hread]
  rfl

theorem expr_names {head : String} {names : List String} {w : Sexpr} (hhead : head = "ntok")
    (hw : w.form = .node head (names.map Form.text)) :
    ∃ p, expr w = .ok (.notTokens names p) := by
  subst hhead
  obtain ⟨p, q, args, rfl, hargs⟩ := form_eq_node hw
  have hread : strings (.list p (.symbol q "ntok" :: args)) = .ok names := mapM_stringOf hargs
  refine ⟨p, ?_⟩
  calc expr (.list p (.symbol q "ntok" :: args))
      = strings (.list p (.symbol q "ntok" :: args)) >>= fun found =>
          pure (.notTokens found p) := rfl
    _ = .ok (.notTokens names p) := by rw [hread]; rfl

theorem expr_seq (p q : Position) (args : List Sexpr) :
    expr (.list p (.symbol q "seq" :: args)) = (exprs args).map .seq := rfl

theorem expr_choice (p q : Position) (args : List Sexpr) :
    expr (.list p (.symbol q "choice" :: args)) = (exprs args).map .choice := rfl

theorem expr_repetition (kind : Repetition) (greedy : Bool) (p q : Position) (only : Sexpr) :
    expr (.list p [.symbol q (repetitionName kind greedy), only]) =
      (expr only).map (.repeated kind (!greedy)) := by
  cases kind <;> cases greedy <;> rfl

mutual
/-- The induction follows the writing of nested blocks. -/
theorem expr_declared (kind : RuleKind) : ∀ (e : Element) {depth : Nat} {w : Sexpr},
    e.Within (2 ^ 32) depth → w.form = elementForm kind e →
    ∃ u, expr w = .ok u ∧ u.unplaced = e.declared kind
  | .literal text, _, w, _, hw => by
      obtain ⟨p, q, args, rfl, hargs⟩ := form_eq_node hw
      obtain ⟨first, rest, rfl, hfirst, hrest⟩ := List.map_eq_cons_iff.mp hargs
      obtain rfl := List.map_eq_nil_iff.mp hrest
      obtain ⟨_, rfl⟩ := form_eq_text hfirst
      exact ⟨.literal text p, rfl, rfl⟩
  | .token name, _, w, _, hw => by
      obtain ⟨p, q, args, rfl, hargs⟩ := form_eq_node hw
      obtain ⟨first, rest, rfl, hfirst, hrest⟩ := List.map_eq_cons_iff.mp hargs
      obtain rfl := List.map_eq_nil_iff.mp hrest
      obtain ⟨_, rfl⟩ := form_eq_text hfirst
      cases kind with
      | lexer => exact ⟨.ref name p, rfl, rfl⟩
      | parser => exact ⟨.token name p, rfl, rfl⟩
  | .rule name, _, w, _, hw => by
      obtain ⟨p, q, args, rfl, hargs⟩ := form_eq_node hw
      obtain ⟨first, rest, rfl, hfirst, hrest⟩ := List.map_eq_cons_iff.mp hargs
      obtain rfl := List.map_eq_nil_iff.mp hrest
      obtain ⟨_, rfl⟩ := form_eq_text hfirst
      exact ⟨.invoke name 0 p, rfl, rfl⟩
  | .ruleAt name precedence, _, w, h, hw => by
      cases h with
      | ruleAt _ hlt =>
          obtain ⟨p, q, args, rfl, hargs⟩ := form_eq_node hw
          obtain ⟨first, rest, rfl, hfirst, hrest⟩ := List.map_eq_cons_iff.mp hargs
          obtain ⟨second, rest, rfl, hsecond, hrest⟩ := List.map_eq_cons_iff.mp hrest
          obtain rfl := List.map_eq_nil_iff.mp hrest
          obtain ⟨_, rfl⟩ := form_eq_text hfirst
          obtain ⟨_, rfl⟩ := form_eq_nat hsecond
          refine ⟨.invoke name (.ofNat precedence) p, ?_, rfl⟩
          rw [expr_invoke, UnitDecl.precedence, Sexpr.int?, Option.bind_some, toWord?_of_lt hlt]
          rfl
  | .charSet ranges negated, _, w, h, hw => by
      cases h with
      | charSet _ hranges => exact ⟨_, expr_set hranges negated hw, rfl⟩
  | .any, _, w, _, hw => by
      obtain ⟨p, q, args, rfl, hargs⟩ := form_eq_node hw
      exact ⟨.any, rfl, rfl⟩
  | .eof, _, w, _, hw => by
      obtain ⟨p, q, args, rfl, hargs⟩ := form_eq_node hw
      exact ⟨.eof, rfl, rfl⟩
  | .notTokens names, _, w, _, hw => by
      obtain ⟨p, hread⟩ := expr_names rfl hw
      exact ⟨_, hread, rfl⟩
  | .not members, _, w, h, hw => by
      cases h with
      | not hmembers =>
          cases kind with
          | lexer => exact ⟨_, expr_set (memberRanges_le hmembers) true hw, rfl⟩
          | parser =>
              obtain ⟨p, hread⟩ := expr_names rfl hw
              exact ⟨_, hread, rfl⟩
  | .block alternatives, _, w, h, hw => by
      cases h with
      | block hwithin => exact choice_declared kind alternatives hwithin hw
  | .repeated e repetition greedy, _, w, h, hw => by
      cases h with
      | repeated _ _ hwithin _ =>
          obtain ⟨p, q, args, rfl, hargs⟩ := form_eq_node hw
          obtain ⟨only, rest, rfl, honly, hrest⟩ := List.map_eq_cons_iff.mp hargs
          obtain rfl := List.map_eq_nil_iff.mp hrest
          obtain ⟨u, hu, hdeclared⟩ := expr_declared kind e hwithin honly
          refine ⟨.repeated repetition (!greedy) u, ?_, ?_⟩
          · rw [expr_repetition, hu]
            rfl
          · rw [UnitExpr.unplaced, hdeclared, Element.declared]

theorem exprs_declared (kind : RuleKind) : ∀ (es : List Element) {depth : Nat} {ws : List Sexpr},
    (∀ e ∈ es, e.Within (2 ^ 32) depth) → ws.map Sexpr.form = elementForms kind es →
    ∃ us, exprs ws = .ok us ∧ us.map UnitExpr.unplaced = Element.declaredAll kind es
  | [], _, ws, _, hws => by
      obtain rfl := List.map_eq_nil_iff.mp hws
      exact ⟨[], rfl, rfl⟩
  | e :: es, _, ws, h, hws => by
      obtain ⟨w, ws, rfl, hw, hrest⟩ := List.map_eq_cons_iff.mp hws
      obtain ⟨u, hu, hdeclared⟩ := expr_declared kind e (h e List.mem_cons_self) hw
      obtain ⟨us, hus, hrest⟩ := exprs_declared kind es
        (fun d hd => h d (List.mem_cons_of_mem e hd)) hrest
      refine ⟨u :: us, ?_, ?_⟩
      · rw [exprs, hu, hus]
        rfl
      · rw [List.map_cons, hdeclared, hrest, Element.declaredAll]

theorem sequence_declared (kind : RuleKind) : ∀ (a : AlternativeOf Element) {depth : Nat}
    {w : Sexpr}, (∀ e ∈ a.elements, e.Within (2 ^ 32) depth) → w.form = blockForm kind a →
    ∃ u, expr w = .ok u ∧ u.unplaced = Element.declaredBlock kind a
  | ⟨[], _, _, _⟩, _, w, _, hw => by
      obtain ⟨p, q, args, rfl, hargs⟩ := form_eq_node hw
      exact ⟨.empty, rfl, rfl⟩
  | ⟨[e], _, _, _⟩, _, w, h, hw => expr_declared kind e (h e List.mem_cons_self) hw
  | ⟨e :: d :: es, _, _, _⟩, _, w, h, hw => by
      obtain ⟨p, q, args, rfl, hargs⟩ := form_eq_node hw
      obtain ⟨us, hus, hdeclared⟩ := exprs_declared kind (e :: d :: es) h hargs
      refine ⟨.seq us, ?_, ?_⟩
      · rw [expr_seq, hus]
        rfl
      · rw [UnitExpr.unplaced, UnitExpr.unplacedAll_eq_map, hdeclared]
        rfl

theorem sequences_declared (kind : RuleKind) : ∀ (alternatives : List (AlternativeOf Element))
    {depth : Nat} {ws : List Sexpr},
    (∀ a ∈ alternatives, ∀ e ∈ a.elements, e.Within (2 ^ 32) depth) →
    ws.map Sexpr.form = blockForms kind alternatives →
    ∃ us, exprs ws = .ok us ∧ us.map UnitExpr.unplaced = Element.declaredBlocks kind alternatives
  | [], _, ws, _, hws => by
      obtain rfl := List.map_eq_nil_iff.mp hws
      exact ⟨[], rfl, rfl⟩
  | a :: rest, _, ws, h, hws => by
      obtain ⟨w, ws, rfl, hw, hrest⟩ := List.map_eq_cons_iff.mp hws
      obtain ⟨u, hu, hdeclared⟩ := sequence_declared kind a (h a List.mem_cons_self) hw
      obtain ⟨us, hus, hrest⟩ := sequences_declared kind rest
        (fun b hb => h b (List.mem_cons_of_mem a hb)) hrest
      refine ⟨u :: us, ?_, ?_⟩
      · rw [exprs, hu, hus]
        rfl
      · rw [List.map_cons, hdeclared, hrest, Element.declaredBlocks]

theorem choice_declared (kind : RuleKind) : ∀ (alternatives : List (AlternativeOf Element))
    {depth : Nat} {w : Sexpr}, (∀ a ∈ alternatives, ∀ e ∈ a.elements, e.Within (2 ^ 32) depth) →
    w.form = choiceForm (blockForms kind alternatives) →
    ∃ u, expr w = .ok u ∧ u.unplaced = .choiceOf (Element.declaredBlocks kind alternatives)
  | [], _, w, _, hw => by
      obtain ⟨p, q, args, rfl, hargs⟩ := form_eq_node hw
      obtain rfl := List.map_eq_nil_iff.mp hargs
      exact ⟨.choice [], rfl, rfl⟩
  | [a], _, w, h, hw => sequence_declared kind a (h a List.mem_cons_self) hw
  | a :: b :: rest, _, w, h, hw => by
      obtain ⟨p, q, args, rfl, hargs⟩ := form_eq_node hw
      obtain ⟨us, hus, hdeclared⟩ := sequences_declared kind (a :: b :: rest) h hargs
      refine ⟨.choice us, ?_, ?_⟩
      · rw [expr_choice, hus]
        rfl
      · rw [UnitExpr.unplaced, UnitExpr.unplacedAll_eq_map, hdeclared]
        rfl
end

end UnitDecl

/-! ## Nesting of written elements -/

namespace UnitText

theorem node_readable {depth : Nat} {head : String} {args : List Form}
    (hhead : Form.isName head = true) (hargs : ∀ f ∈ args, f.Readable depth) :
    (Form.node head args).Readable (depth + 1) := by
  refine .list fun f hf => ?_
  rcases List.mem_cons.mp hf with rfl | hf
  · exact .symbol hhead
  · exact hargs f hf

theorem texts_readable (depth : Nat) (names : List String) :
    ∀ f ∈ names.map Form.text, f.Readable depth := by
  intro f hf
  obtain ⟨name, -, rfl⟩ := List.mem_map.mp hf
  exact .text depth name

theorem setForm_readable (ranges : List (Char × Char)) (negated : Bool) :
    (setForm ranges negated).Readable 2 := by
  refine node_readable (by cases negated <;> decide) fun f hf => ?_
  obtain ⟨r, -, rfl⟩ := List.mem_map.mp hf
  have hcode : ∀ c : Char, (Form.nat c.toNat).Readable 0 := fun c =>
    .nat (Nat.lt_trans c.val.toNat_lt (by decide))
  refine node_readable (by decide) fun f hf => ?_
  simp only [List.mem_cons, List.not_mem_nil, or_false] at hf
  rcases hf with rfl | rfl
  · exact hcode r.1
  · exact hcode r.2

theorem sequenceForm_readable {depth : Nat} {forms : List Form}
    (h : ∀ f ∈ forms, f.Readable depth) : (sequenceForm forms).Readable (depth + 1) := by
  match forms, h with
  | [], h => exact node_readable (by decide) h
  | [f], h => exact (h f List.mem_cons_self).mono (Nat.le_succ depth)
  | f :: g :: rest, h => exact node_readable (by decide) h

theorem choiceForm_readable {depth : Nat} {forms : List Form}
    (h : ∀ f ∈ forms, f.Readable depth) : (choiceForm forms).Readable (depth + 1) := by
  match forms, h with
  | [], h => exact node_readable (by decide) h
  | [f], h => exact (h f List.mem_cons_self).mono (Nat.le_succ depth)
  | f :: g :: rest, h => exact node_readable (by decide) h

/-- What is no repetition leaves room for the list of one. -/
theorem readable_atom {depth : Nat} {f : Form} {P : Prop} (h : f.Readable (3 * depth + 2)) :
    f.Readable (3 * depth + 3) ∧ (P → f.Readable (3 * depth + 2)) :=
  ⟨h.mono (Nat.le_succ _), fun _ => h⟩

mutual
/-- The induction follows the writing of nested blocks. -/
theorem elementForm_readable (kind : RuleKind) : ∀ (e : Element) {depth : Nat},
    e.Within (2 ^ 32) depth → (elementForm kind e).Readable (3 * depth + 3) ∧
      (e.NotRepeated →
        (elementForm kind e).Readable (3 * depth + 2))
  | .literal text, depth, _ =>
      readable_atom (node_readable (by decide) (texts_readable _ [text]))
  | .token name, depth, _ =>
      readable_atom (node_readable (by cases kind <;> decide) (texts_readable _ [name]))
  | .rule name, depth, _ =>
      readable_atom (node_readable (by decide) (texts_readable _ [name]))
  | .ruleAt name precedence, depth, h => by
      cases h with
      | ruleAt _ hlt =>
          refine readable_atom (node_readable (by decide) fun f hf => ?_)
          simp only [List.mem_cons, List.not_mem_nil, or_false] at hf
          rcases hf with rfl | rfl
          · exact .text _ name
          · exact .nat (Nat.lt_trans hlt (by decide))
  | .charSet ranges negated, depth, _ =>
      readable_atom ((setForm_readable ranges negated).mono (Nat.le_add_left 2 _))
  | .any, depth, _ => readable_atom (node_readable (by decide) (by simp))
  | .eof, depth, _ => readable_atom (node_readable (by decide) (by simp))
  | .notTokens names, depth, _ =>
      readable_atom (node_readable (by decide) (texts_readable _ names))
  | .not members, depth, _ => by
      cases kind with
      | lexer =>
          exact readable_atom ((setForm_readable _ true).mono (Nat.le_add_left 2 _))
      | parser =>
          exact readable_atom (node_readable (by decide) (texts_readable _ _))
  | .block alternatives, _, h => by
      cases h with
      | block hwithin =>
          exact readable_atom (choiceForm_readable (blockForms_readable kind alternatives hwithin))
  | .repeated e repetition greedy, depth, h => by
      cases h with
      | repeated _ _ hwithin hne =>
          have hatom := (elementForm_readable kind e hwithin).2 hne
          refine ⟨node_readable (by cases repetition <;> cases greedy <;> decide) fun f hf => ?_,
            fun h => absurd rfl (h e repetition greedy)⟩
          obtain rfl := List.mem_singleton.mp hf
          exact hatom

theorem elementForms_readable (kind : RuleKind) : ∀ (es : List Element) {depth : Nat},
    (∀ e ∈ es, e.Within (2 ^ 32) depth) →
    ∀ f ∈ elementForms kind es, f.Readable (3 * depth + 3)
  | [], _, _ => by simp [elementForms]
  | e :: es, _, h => by
      intro f hf
      rw [elementForms] at hf
      rcases List.mem_cons.mp hf with rfl | hf
      · exact (elementForm_readable kind e (h e List.mem_cons_self)).1
      · exact elementForms_readable kind es (fun d hd => h d (List.mem_cons_of_mem e hd)) f hf

theorem blockForm_readable (kind : RuleKind) : ∀ (a : AlternativeOf Element) {depth : Nat},
    (∀ e ∈ a.elements, e.Within (2 ^ 32) depth) → (blockForm kind a).Readable (3 * depth + 4)
  | ⟨elements, _, _, _⟩, _, h => sequenceForm_readable (elementForms_readable kind elements h)

theorem blockForms_readable (kind : RuleKind) : ∀ (alternatives : List (AlternativeOf Element))
    {depth : Nat}, (∀ a ∈ alternatives, ∀ e ∈ a.elements, e.Within (2 ^ 32) depth) →
    ∀ f ∈ blockForms kind alternatives, f.Readable (3 * depth + 4)
  | [], _, _ => by simp [blockForms]
  | a :: rest, _, h => by
      intro f hf
      rw [blockForms] at hf
      rcases List.mem_cons.mp hf with rfl | hf
      · exact blockForm_readable kind a (h a List.mem_cons_self)
      · exact blockForms_readable kind rest (fun b hb => h b (List.mem_cons_of_mem a hb)) f hf
end

end UnitText

end GrammarEngine
