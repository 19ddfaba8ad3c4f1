import GrammarEngine.Proofs.Checked
import GrammarEngine.Proofs.LeftRecursion.Parts
import GrammarEngine.Unit.Declaration.Reader
import GrammarEngine.Unit.Writer
import Mathlib.Algebra.Group.Nat.Defs

/-!
# Marked references in units

A file contains no reference with a precedence; the rewrite puts one at the end of a part. The unit
that is written for a rewritten rule, and the declaration that is read back from it, carry
precedences at the same places and nowhere else.
-/
namespace GrammarEngine

/-- A declared expression without precedences. -/
inductive UnitExpr.Unmarked : UnitExpr → Prop
  | empty : Unmarked .empty
  | seq {items : List UnitExpr} : (∀ u ∈ items, Unmarked u) → Unmarked (.seq items)
  | choice {items : List UnitExpr} : (∀ u ∈ items, Unmarked u) → Unmarked (.choice items)
  | repeated {u : UnitExpr} (kind : Repetition) (isLazy : Bool) :
      Unmarked u → Unmarked (.repeated kind isLazy u)
  | literal (text : String) (p : Position) : Unmarked (.literal text p)
  | ranges (ranges : List (UInt32 × UInt32)) (negated : Bool) : Unmarked (.ranges ranges negated)
  | any : Unmarked .any
  | ref (name : String) (p : Position) : Unmarked (.ref name p)
  | token (name : String) (p : Position) : Unmarked (.token name p)
  | notTokens (names : List String) (p : Position) : Unmarked (.notTokens names p)
  | eof : Unmarked .eof
  | invoke (name : String) (p : Position) : Unmarked (.invoke name 0 p)

/-- A form in which no invocation has a precedence. -/
inductive Form.Unmarked : Form → Prop
  | symbol (name : String) : Unmarked (.symbol name)
  | text (content : String) : Unmarked (.text content)
  | int (value : Int) : Unmarked (.int value)
  | list {items : List Form} : (∀ f ∈ items, Unmarked f) →
      (∀ name mark rest, items ≠ .symbol "invoke" :: name :: mark :: rest) →
      Unmarked (.list items)

namespace UnitDecl

/-! ## Reading -/

theorem exprs_eq_ok {ws : List Sexpr} {us : List UnitExpr} :
    exprs ws = .ok us ↔ List.Forall₂ (fun w u => expr w = .ok u) ws us := by
  induction ws generalizing us with
  | nil =>
      rw [exprs]
      cases us <;> simp
  | cons w ws ih =>
      simp only [exprs, bind_eq_ok, ih, List.forall₂_cons_left_iff, pure, Except.pure]
      constructor
      · intro ⟨u, hu, rest, hrest, hus⟩
        exact ⟨u, rest, hu, hrest, (Except.ok.inj hus).symm⟩
      · rintro ⟨u, rest, hu, hrest, rfl⟩
        exact ⟨u, hu, rest, hrest, rfl⟩

theorem leaf_unmarked {w : Sexpr} {head : String} {u : UnitExpr} (h : leaf w head = .ok u)
    (hmark : head = "invoke" → w.args.length ≤ 1) : u.Unmarked := by
  unfold leaf at h
  split at h
  all_goals try simp only [bind_eq_ok, pure, Except.pure, Except.ok.injEq] at h
  · exact h ▸ .empty
  · obtain ⟨text, -, rfl⟩ := h
    exact .literal _ _
  · obtain ⟨rs, -, rfl⟩ := h
    exact .ranges _ _
  · obtain ⟨rs, -, rfl⟩ := h
    exact .ranges _ _
  · exact h ▸ .any
  · exact h ▸ .eof
  · obtain ⟨name, -, rfl⟩ := h
    exact .ref _ _
  · obtain ⟨name, -, rfl⟩ := h
    exact .token _ _
  · obtain ⟨names, -, rfl⟩ := h
    exact .notTokens _ _
  · obtain ⟨q, hq, name, -, rfl⟩ := h
    have hlen := hmark rfl
    cases hargs : w.args with
    | nil =>
        rw [hargs, precedence] at hq
        cases hq
        exact .invoke _ _
        nofun
    | cons arg rest =>
        obtain rfl : rest = [] := by
          rw [hargs] at hlen
          exact List.length_eq_zero_iff.mp (by simpa using hlen)
        rw [hargs, precedence] at hq
        cases hq
        exact .invoke _ _
        simp
  · cases h

/-- What is inside an unmarked list is unmarked. -/
theorem unmarked_of_mem_args {p q : Position} {head : String} {args : List Sexpr}
    (h : (Sexpr.list p (.symbol q head :: args)).form.Unmarked) :
    ∀ w ∈ args, w.form.Unmarked := by
  rw [Sexpr.form_list] at h
  cases h with
  | list hitems _ => exact fun w hw => hitems w.form (by simp [List.mem_map_of_mem hw])

/-- An unmarked invocation has nothing behind its name. -/
theorem length_args_of_unmarked {p q : Position} {args : List Sexpr}
    (h : (Sexpr.list p (.symbol q "invoke" :: args)).form.Unmarked) : args.length ≤ 1 := by
  rw [Sexpr.form_list] at h
  cases h with
  | list _ hmark =>
      match args with
      | [] => exact Nat.zero_le _
      | [_] => exact Nat.le_refl _
      | name :: mark :: rest => exact (hmark name.form mark.form (rest.map Sexpr.form) rfl).elim

mutual
/-- The induction follows the reading of nested lists. -/
theorem expr_unmarked : ∀ (w : Sexpr) {u : UnitExpr}, expr w = .ok u → w.form.Unmarked → u.Unmarked
  | .list p (.symbol q head :: args), u, h, hform => by
      have hargs := unmarked_of_mem_args hform
      rw [expr] at h
      split at h
      · obtain ⟨us, hus, rfl⟩ := map_eq_ok.mp h
        exact .seq (exprs_unmarked args hus hargs)
      split at h
      · obtain ⟨us, hus, rfl⟩ := map_eq_ok.mp h
        exact .choice (exprs_unmarked args hus hargs)
      split at h
      · next kind isLazy _ =>
        match args, h, hargs with
        | [only], h, hargs =>
            obtain ⟨u, hu, rfl⟩ := map_eq_ok.mp h
            exact .repeated kind isLazy (expr_unmarked only hu (hargs only List.mem_cons_self))
      · refine leaf_unmarked h fun hhead => ?_
        subst hhead
        exact length_args_of_unmarked hform
  | .symbol _ _, u, h, _ => by simp [expr, faultAt] at h
  | .text _ _, u, h, _ => by simp [expr, faultAt] at h
  | .int _ _, u, h, _ => by simp [expr, faultAt] at h
  | .list _ [], u, h, _ => by simp [expr, faultAt] at h
  | .list _ (.text _ _ :: _), u, h, _ => by simp [expr, faultAt] at h
  | .list _ (.int _ _ :: _), u, h, _ => by simp [expr, faultAt] at h
  | .list _ (.list _ _ :: _), u, h, _ => by simp [expr, faultAt] at h

theorem exprs_unmarked : ∀ (ws : List Sexpr) {us : List UnitExpr}, exprs ws = .ok us →
    (∀ w ∈ ws, w.form.Unmarked) → ∀ u ∈ us, u.Unmarked
  | [], us, h, _ => by
      cases h
      simp
  | w :: ws, us, h, hws => by
      simp only [exprs, bind_eq_ok, pure, Except.pure, Except.ok.injEq] at h
      obtain ⟨u, hu, rest, hrest, rfl⟩ := h
      intro v hv
      rcases List.mem_cons.mp hv with rfl | hv
      · exact expr_unmarked w hu (hws w List.mem_cons_self)
      · exact exprs_unmarked ws hrest (fun w hw => hws w (List.mem_cons_of_mem _ hw)) v hv
end

end UnitDecl

/-! ## Writing -/

namespace UnitText

/-- A form that does not start with an invocation is unmarked if its arguments are. -/
theorem node_unmarked {head : String} {args : List Form} (hhead : head ≠ "invoke")
    (hargs : ∀ f ∈ args, f.Unmarked) : (Form.node head args).Unmarked := by
  refine .list (fun f hf => ?_) fun name mark rest h => ?_
  · rcases List.mem_cons.mp hf with rfl | hf
    · exact .symbol head
    · exact hargs f hf
  · exact hhead (Form.symbol.inj (List.cons.inj h).1)

theorem sequenceForm_unmarked {forms : List Form} (h : ∀ f ∈ forms, f.Unmarked) :
    (sequenceForm forms).Unmarked := by
  match forms, h with
  | [], h => exact node_unmarked (by decide) h
  | [f], h => exact h f List.mem_cons_self
  | f :: g :: rest, h => exact node_unmarked (by decide) h

theorem choiceForm_unmarked {forms : List Form} (h : ∀ f ∈ forms, f.Unmarked) :
    (choiceForm forms).Unmarked := by
  match forms, h with
  | [], h => exact node_unmarked (by decide) h
  | [f], h => exact h f List.mem_cons_self
  | f :: g :: rest, h => exact node_unmarked (by decide) h

theorem texts_unmarked (names : List String) : ∀ f ∈ names.map Form.text, f.Unmarked := by
  intro f hf
  obtain ⟨name, -, rfl⟩ := List.mem_map.mp hf
  exact .text name

mutual
/-- The induction follows the writing of nested blocks. -/
theorem elementForm_unmarked : ∀ (e : Element), e.Written → (elementForm .parser e).Unmarked
  | .literal text, _ => node_unmarked (by decide) (texts_unmarked [text])
  | .token name, _ => node_unmarked (by decide) (texts_unmarked [name])
  | .rule name, _ => by
      refine .list (fun f hf => ?_) fun _ _ _ h => ?_
      · rcases List.mem_cons.mp hf with rfl | hf
        · exact .symbol _
        · exact texts_unmarked [name] f hf
      · simp at h
  | .charSet ranges negated, _ => by
      refine node_unmarked (by cases negated <;> decide) fun f hf => ?_
      obtain ⟨r, -, rfl⟩ := List.mem_map.mp hf
      refine node_unmarked (by decide) fun f hf => ?_
      simp only [List.mem_cons, List.not_mem_nil, or_false] at hf
      rcases hf with rfl | rfl <;> exact .int _
  | .any, _ => node_unmarked (by decide) (by simp)
  | .eof, _ => node_unmarked (by decide) (by simp)
  | .notTokens names, _ => node_unmarked (by decide) (texts_unmarked names)
  | .not members, _ => node_unmarked (by decide) (texts_unmarked (tokenNames members))
  | .block alternatives, h => by
      cases h with
      | block h => exact choiceForm_unmarked (blockForms_unmarked alternatives h)
  | .repeated e kind greedy, h => by
      cases h with
      | repeated _ _ h =>
          refine node_unmarked ?_ fun f hf => ?_
          · cases kind <;> cases greedy <;> decide
          · obtain rfl := List.mem_singleton.mp hf
            exact elementForm_unmarked e h

theorem elementForms_unmarked : ∀ (es : List Element), (∀ e ∈ es, e.Written) →
    ∀ f ∈ elementForms .parser es, f.Unmarked
  | [], _ => by simp [elementForms]
  | e :: rest, h => by
      intro f hf
      rw [elementForms] at hf
      rcases List.mem_cons.mp hf with rfl | hf
      · exact elementForm_unmarked e (h e List.mem_cons_self)
      · exact elementForms_unmarked rest (fun e he => h e (List.mem_cons_of_mem _ he)) f hf

theorem blockForm_unmarked : ∀ (a : AlternativeOf Element), (∀ e ∈ a.elements, e.Written) →
    (blockForm .parser a).Unmarked
  | ⟨elements, _, _, _⟩, h => sequenceForm_unmarked (elementForms_unmarked elements h)

theorem blockForms_unmarked : ∀ (alternatives : List (AlternativeOf Element)),
    (∀ a ∈ alternatives, ∀ e ∈ a.elements, e.Written) →
    ∀ f ∈ blockForms .parser alternatives, f.Unmarked
  | [], _ => by simp [blockForms]
  | a :: rest, h => by
      intro f hf
      rw [blockForms] at hf
      rcases List.mem_cons.mp hf with rfl | hf
      · exact blockForm_unmarked a (h a List.mem_cons_self)
      · exact blockForms_unmarked rest (fun b hb => h b (List.mem_cons_of_mem _ hb)) f hf
end

end UnitText

/-! ## Rules -/

/-- Elements of which only the last can be a reference with a precedence, one that is allowed. -/
def MarkedElements (name : String) (allowed : Nat → Prop) (elements : List Element) : Prop :=
  (∀ e ∈ elements, e.Written) ∨ ∃ init precedence, elements = init ++ [.ruleAt name precedence] ∧
    (∀ e ∈ init, e.Written) ∧ allowed precedence

theorem MarkedElements.mono {name : String} {allowed allowed' : Nat → Prop}
    {elements : List Element} (h : MarkedElements name allowed elements)
    (himp : ∀ p, allowed p → allowed' p) : MarkedElements name allowed' elements :=
  h.imp id fun ⟨init, p, hsplit, hinit, hp⟩ => ⟨init, p, hsplit, hinit, himp p hp⟩

/-- The same for declared expressions. -/
def MarkedItems (allowed : UInt32 → Prop) (items : List UnitExpr) : Prop :=
  (∀ u ∈ items, u.Unmarked) ∨ ∃ init name precedence p,
    items = init ++ [.invoke name precedence p] ∧ (∀ u ∈ init, u.Unmarked) ∧ allowed precedence

/-- A declared rule has precedences only at the ends of its parts, and the one of a suffix is at
most one above the suffix. -/
def MarkedBody : ParserRuleBody → Prop
  | .plain alternatives => ∀ items ∈ alternatives, ∀ u ∈ items, u.Unmarked
  | .leftRecursive primaries suffixes => (∀ items ∈ primaries, MarkedItems (fun _ => True) items) ∧
      ∀ s ∈ suffixes, MarkedItems (fun q => q.toNat ≤ s.1.toNat + 1) s.2

namespace LeftRecursion

/-- The elements of a part carry a precedence at most at their end. -/
theorem marked_markOperand {name : String} {precedence : Nat} {a : Alternative}
    (h : ∀ e ∈ a.elements, e.Written) :
    MarkedElements name (fun p => p ≤ precedence + 1) (markOperand name precedence a).elements := by
  rcases markOperand_cases name precedence a with ⟨-, ha⟩ | ⟨init, -, hinit, hmarked⟩
  · exact .inl (by rwa [ha])
  · refine .inr ⟨init, _, hmarked, fun e he => h e ?_, (operandPrecedence_le name precedence a).2⟩
    rw [hinit]
    exact List.mem_append_left _ he

theorem marked_drop {name : String} {allowed : Nat → Prop} {e : Element} {elements : List Element}
    (h : MarkedElements name allowed (e :: elements)) (he : e.Written) :
    MarkedElements name allowed elements := by
  rcases h with h | ⟨init, precedence, hsplit, hinit, hallowed⟩
  · exact .inl fun d hd => h d (List.mem_cons_of_mem e hd)
  · cases init with
    | nil =>
        obtain ⟨rfl, -⟩ := List.cons.inj hsplit
        cases he
    | cons d init =>
        obtain ⟨rfl, rfl⟩ := List.cons.inj hsplit
        have hrest : ∀ c ∈ init, c.Written := fun c hc => hinit c (List.mem_cons_of_mem _ hc)
        exact .inr ⟨init, precedence, rfl, hrest, hallowed⟩

/-- A rewritten rule has precedences only at the ends of its parts. -/
def MarkedSpec : ParserRuleSpec → Prop
  | .plain _ alternatives => ∀ a ∈ alternatives, a.commands = [] ∧ ∀ e ∈ a.elements, e.Written
  | .leftRecursive name primaries suffixes =>
    (∀ b ∈ primaries, b.commands = [] ∧ MarkedElements name (fun _ => True) b.elements) ∧
      ∀ s ∈ suffixes, MarkedElements name (fun p => p ≤ s.precedence + 1) s.elements

theorem markedSpec_of_eliminate {name : String} {alternatives : List Alternative}
    {spec : ParserRuleSpec}
    (hwritten : ∀ a ∈ alternatives, a.commands = [] ∧ ∀ e ∈ a.elements, e.Written)
    (h : eliminate name alternatives = .ok spec) : MarkedSpec spec := by
  cases eliminated_of_eliminate h with
  | plain _ => exact hwritten
  | leftRecursive hprimaries hsuffixes =>
      refine ⟨fun b hb => ?_, fun s hs => ?_⟩
      · obtain ⟨precedence, a, hstands, -, rfl⟩ := (hprimaries b).mp hb
        obtain ⟨hcommands, hwritten⟩ := hwritten a hstands.mem
        rw [commands_markOperand name precedence a]
        exact ⟨hcommands, (marked_markOperand hwritten).mono fun _ _ => trivial⟩
      · obtain ⟨precedence, a, elements, hstands, helements, hne, rfl⟩ := (hsuffixes s).mp hs
        obtain ⟨tail, htail⟩ := markOperand_leading precedence helements
        have hmark : MarkedElements name (fun p => p ≤ precedence + 1) (.rule name :: tail) :=
          htail ▸ marked_markOperand (hwritten a hstands.mem).2
        change MarkedElements name (fun p => p ≤ precedence + 1)
          ((markOperand name precedence a).elements.drop 1)
        rw [htail]
        exact marked_drop hmark (.rule name)

end LeftRecursion

namespace UnitText

theorem elementForms_eq_map (es : List Element) :
    elementForms .parser es = es.map (elementForm .parser) := by
  induction es with
  | nil => rfl
  | cons e es ih => rw [elementForms, ih, List.map_cons]

end UnitText

namespace UnitDecl

open UnitText LeftRecursion

theorem form_eq_node {w : Sexpr} {head : String} {forms : List Form}
    (h : w.form = .node head forms) :
    ∃ p q args, w = .list p (.symbol q head :: args) ∧ args.map Sexpr.form = forms := by
  cases w with
  | list p items =>
      rw [Sexpr.form_list, Form.node] at h
      cases items with
      | nil => simp at h
      | cons first args =>
          obtain ⟨hfirst, hargs⟩ := List.cons.inj (Form.list.inj h)
          cases first with
          | symbol q name =>
              obtain rfl := Form.symbol.inj hfirst
              exact ⟨p, q, args, rfl, hargs⟩
          | _ => simp [Sexpr.form] at hfirst
  | _ => simp [Sexpr.form, Form.node] at h

theorem form_eq_text {w : Sexpr} {s : String} (h : w.form = .text s) : ∃ p, w = .text p s := by
  cases w with
  | text p content =>
      obtain rfl := Form.text.inj h
      exact ⟨p, rfl⟩
  | _ => simp [Sexpr.form] at h

theorem form_eq_nat {w : Sexpr} {n : Nat} (h : w.form = .nat n) : ∃ p, w = .int p n := by
  cases w with
  | int p value =>
      obtain rfl := Form.int.inj h
      exact ⟨p, rfl⟩
  | _ => simp [Sexpr.form, Form.nat] at h

theorem toNat_of_toWord? {n : Nat} {q : UInt32} (h : toWord? n = some q) : q.toNat = n := by
  unfold toWord? at h
  split at h
  · next hn =>
    obtain rfl := Option.some.inj h
    have hlt : n < 2 ^ 32 := by omega
    rw [Int.toNat_natCast]
    exact UInt32.toNat_ofNat_of_lt hlt
  · cases h

theorem repetition?_invoke : repetition? "invoke" = none := by
  unfold repetition?
  split
  all_goals first
    | rfl
    | next h => exact absurd h (by decide)

theorem leaf_invoke (w : Sexpr) :
    leaf w "invoke" = precedence w.args >>= fun q =>
      stringAt w 0 "rule name" >>= fun name => pure (.invoke name q w.position) := by
  unfold leaf
  split
  all_goals first
    | rfl
    | next h => exact absurd h (by decide)

theorem expr_invoke (p q : Position) (args : List Sexpr) :
    expr (.list p (.symbol q "invoke" :: args)) =
      precedence args >>= fun mark =>
        stringAt (.list p (.symbol q "invoke" :: args)) 0 "rule name" >>= fun name =>
          pure (.invoke name mark p) := by
  rw [expr]
  simp only [beq_iff_eq, String.reduceEq, if_false, repetition?_invoke, leaf_invoke]
  rfl

/-- A reference with a precedence is read as an invocation with this precedence. -/
theorem expr_ruleAt {w : Sexpr} {name : String} {n : Nat} {u : UnitExpr}
    (hw : w.form = elementForm .parser (.ruleAt name n)) (h : expr w = .ok u) :
    ∃ q p, u = .invoke name q p ∧ q.toNat = n := by
  rw [elementForm] at hw
  obtain ⟨p, q, args, rfl, hargs⟩ := form_eq_node hw
  obtain ⟨first, rest, rfl, hfirst, hrest⟩ := List.map_eq_cons_iff.mp hargs
  obtain ⟨second, rest, rfl, hsecond, hrest⟩ := List.map_eq_cons_iff.mp hrest
  obtain rfl := List.map_eq_nil_iff.mp hrest
  obtain ⟨_, rfl⟩ := form_eq_text hfirst
  obtain ⟨_, rfl⟩ := form_eq_nat hsecond
  simp only [expr_invoke, bind_eq_ok, pure, Except.pure, Except.ok.injEq] at h
  obtain ⟨r, hr, name', hname, rfl⟩ := h
  rw [precedence] at hr
  simp only [stringAt, Sexpr.args, List.getElem?_cons_zero, Option.bind_some, Sexpr.text?,
    Except.ok.injEq] at hname
  subst hname
  split at hr
  · next word hword =>
    obtain ⟨m, hm, hword⟩ := Option.bind_eq_some_iff.mp hword
    obtain rfl := Option.some.inj hm
    obtain rfl := Except.ok.inj hr
    exact ⟨word, _, rfl, toNat_of_toWord? hword⟩
  · cases hr

/-- Elements are read with precedences at the same places. -/
theorem exprs_marked {name : String} {allowed : Nat → Prop} {elements : List Element}
    {ws : List Sexpr} {us : List UnitExpr} (hmarked : MarkedElements name allowed elements)
    (hws : ws.map Sexpr.form = elementForms .parser elements) (h : exprs ws = .ok us) :
    MarkedItems (fun q => allowed q.toNat) us := by
  rcases hmarked with hwritten | ⟨init, precedence, rfl, hinit, hallowed⟩
  · refine .inl (exprs_unmarked ws h fun w hw => ?_)
    exact elementForms_unmarked elements hwritten w.form (hws ▸ List.mem_map_of_mem hw)
  · rw [elementForms_eq_map, List.map_append] at hws
    obtain ⟨front, back, rfl, hfront, hback⟩ := List.map_eq_append_iff.mp hws
    obtain ⟨last, rest, rfl, hlast, hrest⟩ := List.map_eq_cons_iff.mp hback
    obtain rfl := List.map_eq_nil_iff.mp hrest
    obtain ⟨us₁, us₂, rfl, hus₁, hus₂⟩ := forall₂_append_left (exprs_eq_ok.mp h)
    obtain ⟨u, rest, hu, hrest, rfl⟩ := List.forall₂_cons_left_iff.mp hus₂
    obtain rfl := List.forall₂_nil_left_iff.mp hrest
    obtain ⟨q, p, rfl, rfl⟩ := expr_ruleAt hlast hu
    refine .inr ⟨us₁, name, q, p, rfl, exprs_unmarked front (exprs_eq_ok.mpr hus₁) fun w hw => ?_,
      hallowed⟩
    rw [← elementForms_eq_map] at hfront
    exact elementForms_unmarked init hinit w.form (hfront ▸ List.mem_map_of_mem hw)

/-- Alternatives are read with precedences at the same places. -/
theorem alternatives_marked {name : String} {allowed : Nat → Prop} {written : List Alternative}
    {ws : List Sexpr} {declared : List (List UnitExpr)}
    (hmarked : ∀ a ∈ written, a.commands = [] ∧ MarkedElements name allowed a.elements)
    (hws : ws.map Sexpr.form = written.map (alternativeForm .parser))
    (h : alternatives ws = .ok declared) :
    ∀ items ∈ declared, MarkedItems (fun q => allowed q.toNat) items := by
  have hread := mapM_eq_ok.mp h
  clear h
  induction hread generalizing written with
  | nil => simp
  | @cons w items ws declared hitems _ ih =>
      obtain ⟨a, written, rfl, ha, hrest⟩ := List.map_eq_cons_iff.mp hws.symm
      obtain ⟨hcommands, hmark⟩ := hmarked a List.mem_cons_self
      rw [alternativeForm, hcommands, List.map_nil, List.append_nil] at ha
      obtain ⟨p, q, args, rfl, hargs⟩ := form_eq_node ha.symm
      rw [alternative, if_pos (by simp [Sexpr.head?])] at hitems
      intro read hread
      rcases List.mem_cons.mp hread with rfl | hread
      · exact exprs_marked hmark hargs hitems
      · exact ih (fun b hb => hmarked b (List.mem_cons_of_mem a hb)) hrest.symm read hread

theorem addPart_primary (parts : Parts) (p q : Position) (args : List Sexpr) :
    addPart parts (.list p (.symbol q "primary" :: args)) =
      alternatives args >>= fun found => pure (parts.1 ++ found, parts.2) := by
  rw [addPart, Sexpr.head?]
  rfl

theorem addPart_suffix (parts : Parts) (p q : Position) (args : List Sexpr) :
    addPart parts (.list p (.symbol q "suffix" :: args)) =
      intAt (.list p (.symbol q "suffix" :: args)) 0 "precedence" >>= fun n =>
        match toWord? n with
        | none => faultAt (.list p (.symbol q "suffix" :: args)) .precedenceOutOfRange
        | some word => alternatives (args.drop 1) >>= fun found =>
            pure (parts.1, parts.2 ++ found.map fun items => (word, items)) := by
  rw [addPart, Sexpr.head?]
  rfl

/-- The parts read so far have precedences only at their ends. -/
def MarkedParts (parts : Parts) : Prop :=
  (∀ items ∈ parts.1, MarkedItems (fun _ => True) items) ∧
    ∀ s ∈ parts.2, MarkedItems (fun q => q.toNat ≤ s.1.toNat + 1) s.2

theorem addPart_primary_marked {name : String} {a : Alternative} {w : Sexpr} {parts parts' : Parts}
    (hcommands : a.commands = []) (hmark : MarkedElements name (fun _ => True) a.elements)
    (hw : w.form = .node "primary" [alternativeForm .parser a]) (hparts : MarkedParts parts)
    (h : addPart parts w = .ok parts') : MarkedParts parts' := by
  obtain ⟨p, q, args, rfl, hargs⟩ := form_eq_node hw
  rw [addPart_primary, bind_eq_ok] at h
  obtain ⟨found, hfound, h⟩ := h
  obtain rfl := Except.ok.inj h
  have hmarked : ∀ b ∈ [a], b.commands = [] ∧ MarkedElements name (fun _ => True) b.elements := by
    simpa using ⟨hcommands, hmark⟩
  exact ⟨List.forall_mem_append.mpr ⟨hparts.1, alternatives_marked hmarked hargs hfound⟩, hparts.2⟩

theorem addPart_suffix_marked {name : String} {s : SuffixSpec} {w : Sexpr} {parts parts' : Parts}
    (hmark : MarkedElements name (fun p => p ≤ s.precedence + 1) s.elements)
    (hw : w.form = suffixForm s) (hparts : MarkedParts parts)
    (h : addPart parts w = .ok parts') : MarkedParts parts' := by
  obtain ⟨p, q, args, rfl, hargs⟩ := form_eq_node hw
  obtain ⟨first, rest, rfl, hfirst, hrest⟩ := List.map_eq_cons_iff.mp hargs
  obtain ⟨_, rfl⟩ := form_eq_nat hfirst
  rw [addPart_suffix, bind_eq_ok] at h
  obtain ⟨n, hn, h⟩ := h
  have hprecedence : n = s.precedence := (Except.ok.inj hn).symm
  subst hprecedence
  split at h
  · cases h
  · next word hword =>
    rw [bind_eq_ok] at h
    obtain ⟨found, hfound, h⟩ := h
    obtain rfl := Except.ok.inj h
    refine ⟨hparts.1, List.forall_mem_append.mpr ⟨hparts.2, fun s' hs' => ?_⟩⟩
    obtain ⟨items, hitems, rfl⟩ := List.mem_map.mp hs'
    have hmarked : ∀ b ∈ [({ elements := s.elements } : Alternative)], b.commands = [] ∧
        MarkedElements name (fun p => p ≤ s.precedence + 1) b.elements := by
      simpa using hmark
    have hread := alternatives_marked hmarked (by simpa [alternativeForm] using hrest) hfound
    rw [toNat_of_toWord? hword]
    exact hread items hitems

theorem parserRuleBody_plain_marked {name : String} {written : List Alternative} {w : Sexpr}
    {body : ParserRuleBody} (hmarked : MarkedSpec (.plain name written))
    (hw : w.form = (parserRuleClause (.plain name written)).form)
    (h : parserRuleBody w = .ok body) : MarkedBody body := by
  have hnode : w.form = .node "rule" (.text name :: written.map (alternativeForm .parser)) := hw
  obtain ⟨p, q, args, rfl, hargs⟩ := form_eq_node hnode
  obtain ⟨first, rest, rfl, -, hrest⟩ := List.map_eq_cons_iff.mp hargs
  rw [parserRuleBody, if_pos (by simp [Sexpr.head?]), bind_eq_ok] at h
  obtain ⟨declared, hdeclared, h⟩ := h
  obtain rfl := Except.ok.inj h
  have hnowhere : ∀ a ∈ written, a.commands = [] ∧
      MarkedElements name (fun _ => False) a.elements :=
    fun a ha => ⟨(hmarked a ha).1, .inl (hmarked a ha).2⟩
  intro items hitems
  rcases alternatives_marked hnowhere hrest hdeclared items hitems with hplain | ⟨_, _, _, _, h⟩
  · exact hplain
  · exact h.2.2.elim

theorem parserRuleBody_leftRecursive_marked {name : String} {primaries : List Alternative}
    {suffixes : List SuffixSpec} {w : Sexpr} {body : ParserRuleBody}
    (hmarked : MarkedSpec (.leftRecursive name primaries suffixes))
    (hw : w.form = (parserRuleClause (.leftRecursive name primaries suffixes)).form)
    (h : parserRuleBody w = .ok body) : MarkedBody body := by
  have hnode : w.form = .node "lrule" (.text name ::
      (primaries.map (fun a => .node "primary" [alternativeForm .parser a]) ++
        suffixes.map suffixForm)) := hw
  obtain ⟨p, q, args, rfl, hargs⟩ := form_eq_node hnode
  obtain ⟨first, rest, rfl, -, hrest⟩ := List.map_eq_cons_iff.mp hargs
  rw [parserRuleBody, if_neg (by simp [Sexpr.head?]), bind_eq_ok] at h
  obtain ⟨parts, hparts, h⟩ := h
  have hread : MarkedParts parts := by
    refine foldlM_invariant MarkedParts ⟨by simp, by simp⟩
      (fun part hpart parts parts' hold h => ?_) hparts
    have hform : part.form ∈ rest.map Sexpr.form := List.mem_map_of_mem hpart
    rw [hrest] at hform
    rcases List.mem_append.mp hform with hform | hform
    · obtain ⟨b, hb, hform⟩ := List.mem_map.mp hform
      obtain ⟨hcommands, hmark⟩ := hmarked.1 b hb
      exact addPart_primary_marked hcommands hmark hform.symm hold h
    · obtain ⟨s, hs, hform⟩ := List.mem_map.mp hform
      exact addPart_suffix_marked (hmarked.2 s hs) hform.symm hold h
  split at h
  · cases h
  · obtain rfl := Except.ok.inj h
    exact hread

/-- The declaration that is read from the unit of a rewritten rule. -/
theorem parserRuleBody_marked {name : String} {alternatives : List Alternative}
    {spec : ParserRuleSpec} {w : Sexpr} {body : ParserRuleBody}
    (hwritten : ∀ a ∈ alternatives, a.commands = [] ∧ ∀ e ∈ a.elements, e.Written)
    (helim : eliminate name alternatives = .ok spec)
    (hw : w.form = (parserRuleClause spec).form) (h : parserRuleBody w = .ok body) :
    MarkedBody body := by
  have hmarked := markedSpec_of_eliminate hwritten helim
  cases spec with
  | plain => exact parserRuleBody_plain_marked hmarked hw h
  | leftRecursive => exact parserRuleBody_leftRecursive_marked hmarked hw h

end UnitDecl

end GrammarEngine
