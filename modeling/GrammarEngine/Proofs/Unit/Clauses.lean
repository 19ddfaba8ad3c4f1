import GrammarEngine.Grammar.Reader
import GrammarEngine.Proofs.Unit.Declared

/-!
# Declared recognizers

What an analysed lexer or parser declares once it has been written as a unit: the same properties,
tokens and rules in order, and for every alternative what its elements declare. Places are left out
of declarations.

A unit is read clause by clause. What a row of clauses adds to a declaration is a function of the
declaration without places, so the clauses of a unit compose.
-/
namespace GrammarEngine

/-! ## Declarations without places -/

def NameAt.unplaced (n : NameAt) : NameAt := ⟨n.name, {}⟩

def LexerAlternative.unplaced (a : LexerAlternative) : LexerAlternative :=
  ⟨a.items.map UnitExpr.unplaced, a.commands.map fun c => (c.1, {})⟩

def LexerRuleDecl.unplaced (r : LexerRuleDecl) : LexerRuleDecl :=
  { r with position := {}, alternatives := r.alternatives.map LexerAlternative.unplaced }

def FragmentDecl.unplaced (f : FragmentDecl) : FragmentDecl :=
  { f with position := {}, alternatives := f.alternatives.map (List.map UnitExpr.unplaced) }

def LexerDecl.unplaced (d : LexerDecl) : LexerDecl :=
  { d with
    position := {}
    base := d.base.map NameAt.unplaced
    rules := d.rules.map LexerRuleDecl.unplaced
    fragments := d.fragments.map FragmentDecl.unplaced }

def ParserRuleBody.unplaced : ParserRuleBody → ParserRuleBody
  | .plain alternatives => .plain (alternatives.map (List.map UnitExpr.unplaced))
  | .leftRecursive primaries suffixes =>
    .leftRecursive (primaries.map (List.map UnitExpr.unplaced))
      (suffixes.map fun s => (s.1, s.2.map UnitExpr.unplaced))

def ParserRuleDecl.unplaced (r : ParserRuleDecl) : ParserRuleDecl := ⟨r.name, {}, r.body.unplaced⟩

def ParserDecl.unplaced (d : ParserDecl) : ParserDecl :=
  { d with
    position := {}
    vocabulary := d.vocabulary.unplaced
    base := d.base.map NameAt.unplaced
    start := d.start.map NameAt.unplaced
    rules := d.rules.map ParserRuleDecl.unplaced }

/-! ## What a recognizer declares -/

def TokenSpec.declared (t : TokenSpec) : TokenDecl := ⟨.ofInt t.type, t.name, t.literal⟩

/-- What the elements of an alternative declare, its commands aside. -/
def declaredItems (kind : UnitText.RuleKind) (a : Alternative) : List UnitExpr :=
  Element.declaredAll kind a.elements

def declaredAlternative (a : Alternative) : LexerAlternative :=
  ⟨declaredItems .lexer a, a.commands.map fun c => (c, {})⟩

def LexerRuleSpec.declaredToken? (r : LexerRuleSpec) : Option LexerRuleDecl :=
  r.tokenType.map fun type =>
    ⟨r.name, {}, .ofInt type, r.mode, r.alternatives.map declaredAlternative⟩

theorem LexerRuleSpec.declaredToken?_of_some {r : LexerRuleSpec} {type : Nat}
    (h : r.tokenType = some type) : r.declaredToken? =
      some ⟨r.name, {}, .ofInt type, r.mode, r.alternatives.map declaredAlternative⟩ := by
  rw [declaredToken?, h]
  rfl

theorem LexerRuleSpec.declaredToken?_of_none {r : LexerRuleSpec} (h : r.tokenType = none) :
    r.declaredToken? = none := by
  rw [declaredToken?, h]
  rfl

def LexerRuleSpec.declaredFragment? (r : LexerRuleSpec) : Option FragmentDecl :=
  match r.tokenType with
  | some _ => none
  | none => some ⟨r.name, {}, r.alternatives.map (declaredItems .lexer)⟩

def LexerSpec.declared (spec : LexerSpec) : LexerDecl where
  name := spec.unit
  position := {}
  grammar := spec.grammar
  caseInsensitive := spec.caseInsensitive
  base := spec.extends.map fun base => ⟨base, {}⟩
  channels := spec.channels
  modes := spec.modes
  tokens := spec.vocabulary.map TokenSpec.declared
  rules := spec.rules.filterMap LexerRuleSpec.declaredToken?
  fragments := spec.rules.filterMap LexerRuleSpec.declaredFragment?

theorem unplaced_declaredItems (kind : UnitText.RuleKind) (a : Alternative) :
    (declaredItems kind a).map UnitExpr.unplaced = declaredItems kind a :=
  Element.unplaced_declaredAll kind a.elements

theorem unplaced_declaredAlternative (a : Alternative) :
    (declaredAlternative a).unplaced = declaredAlternative a := by
  rw [declaredAlternative, LexerAlternative.unplaced, unplaced_declaredItems, List.map_map]
  rfl

/-- What a lexer declares has no places. -/
theorem LexerSpec.unplaced_declared (l : LexerSpec) : l.declared.unplaced = l.declared := by
  have hrules : l.declared.rules.map LexerRuleDecl.unplaced = l.declared.rules := by
    refine (List.map_congr_left fun d hd => ?_).trans (List.map_id _)
    obtain ⟨r, -, hr⟩ := List.mem_filterMap.mp hd
    obtain ⟨type, -, rfl⟩ := Option.map_eq_some_iff.mp hr
    simp only [LexerRuleDecl.unplaced, List.map_map, Function.comp_def,
      unplaced_declaredAlternative, id]
  have hfragments : l.declared.fragments.map FragmentDecl.unplaced = l.declared.fragments := by
    refine (List.map_congr_left fun d hd => ?_).trans (List.map_id _)
    obtain ⟨r, -, hr⟩ := List.mem_filterMap.mp hd
    unfold LexerRuleSpec.declaredFragment? at hr
    split at hr
    · cases hr
    · obtain rfl := Option.some.inj hr
      simp only [FragmentDecl.unplaced, List.map_map, Function.comp_def, unplaced_declaredItems, id]
  have hbase : l.declared.base.map NameAt.unplaced = l.declared.base := Option.map_map _ _ _
  rw [LexerDecl.unplaced, hrules, hfragments, hbase]
  rfl

def ParserRuleSpec.declaredBody : ParserRuleSpec → ParserRuleBody
  | .plain _ alternatives => .plain (alternatives.map (declaredItems .parser))
  | .leftRecursive _ primaries suffixes =>
    .leftRecursive (primaries.map (declaredItems .parser))
      (suffixes.map fun s => (.ofNat s.precedence, Element.declaredAll .parser s.elements))

def ParserRuleSpec.declared (r : ParserRuleSpec) : ParserRuleDecl := ⟨r.name, {}, r.declaredBody⟩

def ParserSpec.declared (spec : ParserSpec) : ParserDecl where
  name := spec.unit
  position := {}
  grammar := spec.grammar
  vocabulary := ⟨spec.vocabularyUnit, {}⟩
  base := spec.extends.map fun base => ⟨base, {}⟩
  start := some ⟨spec.startRule, {}⟩
  rules := spec.rules.map ParserRuleSpec.declared

/-! ## Specifications that can be written -/

/-- The deepest nesting of blocks in a file and the words that a unit can hold. -/
def Element.Writable (e : Element) : Prop := e.Within (2 ^ 32) Reading.maxBlockDepth

def LexerRuleSpec.Writable (r : LexerRuleSpec) : Prop :=
  (∀ type, r.tokenType = some type → type < 2 ^ 31) ∧
    (r.tokenType = none → ∀ a ∈ r.alternatives, a.commands = []) ∧
    ∀ a ∈ r.alternatives, ∀ e ∈ a.elements, e.Writable

structure LexerSpec.Writable (spec : LexerSpec) : Prop where
  modes : spec.modes ≠ []
  vocabulary : ∀ t ∈ spec.vocabulary, t.type < 2 ^ 31
  rules : ∀ r ∈ spec.rules, r.Writable

/-- Commands have no meaning in a parser rule. -/
def Alternative.Writable (a : Alternative) : Prop :=
  a.commands = [] ∧ ∀ e ∈ a.elements, e.Writable

def ParserRuleSpec.Writable : ParserRuleSpec → Prop
  | .plain _ alternatives => ∀ a ∈ alternatives, Alternative.Writable a
  | .leftRecursive _ primaries suffixes =>
    primaries ≠ [] ∧ (∀ a ∈ primaries, Alternative.Writable a) ∧
      ∀ s ∈ suffixes, s.precedence < 2 ^ 32 ∧ ∀ e ∈ s.elements, e.Writable

namespace UnitDecl
open UnitText

/-! ## Rows of clauses -/

section
variable {σ : Type} {step : σ → Sexpr → Reading σ} {erase : σ → σ}

/-- Reading these forms succeeds and changes what has been read, places aside, as a function
says. -/
def Puts (step : σ → Sexpr → Reading σ) (erase : σ → σ) (forms : List Form) (put : σ → σ) : Prop :=
  ∀ (ws : List Sexpr) (d : σ), ws.map Sexpr.form = forms →
    ∃ d', ws.foldlM step d = .ok d' ∧ erase d' = put (erase d)

theorem puts_nil : Puts step erase [] id := by
  intro ws d hws
  obtain rfl := List.map_eq_nil_iff.mp hws
  exact ⟨d, rfl, rfl⟩

theorem puts_one {f : Form} {put : σ → σ}
    (h : ∀ w d, w.form = f → ∃ d', step d w = .ok d' ∧ erase d' = put (erase d)) :
    Puts step erase [f] put := by
  intro ws d hws
  obtain ⟨w, rest, rfl, hw, hrest⟩ := List.map_eq_cons_iff.mp hws
  obtain rfl := List.map_eq_nil_iff.mp hrest
  obtain ⟨d', hd', herase⟩ := h w d hw
  exact ⟨d', by rw [List.foldlM_cons, hd']; rfl, herase⟩

theorem Puts.append {fs gs : List Form} {put put' : σ → σ} (h : Puts step erase fs put)
    (h' : Puts step erase gs put') : Puts step erase (fs ++ gs) (put' ∘ put) := by
  intro ws d hws
  obtain ⟨front, back, rfl, hfront, hback⟩ := List.map_eq_append_iff.mp hws
  obtain ⟨d₁, hd₁, herase₁⟩ := h front d hfront
  obtain ⟨d₂, hd₂, herase₂⟩ := h' back d₁ hback
  refine ⟨d₂, ?_, by rw [herase₂, herase₁]; rfl⟩
  rw [List.foldlM_append, hd₁]
  exact hd₂

theorem Puts.congr {fs : List Form} {put put' : σ → σ} (h : Puts step erase fs put)
    (heq : ∀ d, put d = put' d) : Puts step erase fs put' := by
  rwa [show put' = put from funext fun d => (heq d).symm]

end

/-! ## Clauses of texts -/

theorem stringAt_text (p q p₁ : Position) (head s what : String) (rest : List Sexpr) :
    stringAt (.list p (.symbol q head :: .text p₁ s :: rest)) 0 what = .ok s := rfl

theorem form_eq_textClause {w : Sexpr} {head s : String} (hw : w.form = (textClause head s).form) :
    ∃ p q p₁, w = .list p [.symbol q head, .text p₁ s] := by
  have hnode : w.form = .node head [.text s] := hw
  obtain ⟨p, q, args, rfl, hargs⟩ := form_eq_node hnode
  obtain ⟨first, rest, rfl, hfirst, hrest⟩ := List.map_eq_cons_iff.mp hargs
  obtain rfl := List.map_eq_nil_iff.mp hrest
  obtain ⟨p₁, rfl⟩ := form_eq_text hfirst
  exact ⟨p, q, p₁, rfl⟩

theorem strings_form {w : Sexpr} {head : String} {names : List String}
    (hw : w.form = (namesClause head names).form) :
    ∃ p q args, w = .list p (.symbol q head :: args) ∧ strings w = .ok names := by
  have hnode : w.form = .node head (names.map .text) := by
    rw [hw, namesClause, Clause.form, List.append_nil]
    rfl
  obtain ⟨p, q, args, rfl, hargs⟩ := form_eq_node hnode
  exact ⟨p, q, args, rfl, mapM_stringOf hargs⟩

/-! ## Alternatives -/

theorem alternative_declared {kind : RuleKind} {a : Alternative} {w : Sexpr}
    (hcommands : a.commands = []) (helements : ∀ e ∈ a.elements, e.Writable)
    (hw : w.form = alternativeForm kind a) :
    ∃ items, alternative w = .ok items ∧ items.map UnitExpr.unplaced = declaredItems kind a := by
  rw [alternativeForm, hcommands, List.map_nil, List.append_nil] at hw
  obtain ⟨p, q, args, rfl, hargs⟩ := form_eq_node hw
  exact exprs_declared kind a.elements helements hargs

theorem alternatives_declared (kind : RuleKind) {written : List Alternative} {ws : List Sexpr}
    (h : ∀ a ∈ written, a.commands = [] ∧ ∀ e ∈ a.elements, e.Writable)
    (hws : ws.map Sexpr.form = written.map (alternativeForm kind)) :
    ∃ found, alternatives ws = .ok found ∧
      found.map (List.map UnitExpr.unplaced) = written.map (declaredItems kind) :=
  mapM_forms alternative _ _ hws fun a ha _ hw => alternative_declared (h a ha).1 (h a ha).2 hw

/-- A form that is an expression is no command. -/
theorem command?_of_expr {w : Sexpr} {u : UnitExpr} (h : expr w = .ok u) :
    command? w = .ok none := by
  have hhead : ∀ head ∈ ["skip", "more", "pop-mode", "channel", "type", "mode", "push-mode"],
      w.head? ≠ some head := by
    intro head hhead hw
    obtain ⟨p, q, args, rfl⟩ : ∃ p q args, w = .list p (.symbol q head :: args) := by
      unfold Sexpr.head? at hw
      split at hw
      · exact ⟨_, _, _, by rw [Option.some.inj hw]⟩
      · cases hw
    simp only [List.mem_cons, List.not_mem_nil, or_false] at hhead
    rcases hhead with rfl | rfl | rfl | rfl | rfl | rfl | rfl <;> cases h
  unfold command?
  split
  all_goals first
    | rfl
    | next hw => exact absurd hw (hhead _ (by decide))

theorem foldlM_addItem_exprs {ws : List Sexpr} {us : List UnitExpr} (h : exprs ws = .ok us)
    (items : List UnitExpr) : ws.foldlM addItem ⟨items, []⟩ = .ok ⟨items ++ us, []⟩ := by
  induction ws generalizing us items with
  | nil =>
      cases h
      rw [List.append_nil]
      rfl
  | cons w ws ih =>
      simp only [exprs, bind_eq_ok, pure, Except.pure, Except.ok.injEq] at h
      obtain ⟨u, hu, rest, hrest, rfl⟩ := h
      have hitem : addItem ⟨items, []⟩ w = .ok ⟨items ++ [u], []⟩ := by
        simp [addItem, command?_of_expr hu, hu, bind, Except.bind, pure, Except.pure]
      rw [List.foldlM_cons, hitem]
      have hfold := ih hrest (items ++ [u])
      rw [List.append_assoc] at hfold
      exact hfold

theorem command?_form {w : Sexpr} {c : LexerCommand} (hw : w.form = commandForm c) :
    command? w = .ok (some c) := by
  cases c with
  | skip => obtain ⟨p, q, args, rfl, -⟩ := form_eq_node hw; rfl
  | more => obtain ⟨p, q, args, rfl, -⟩ := form_eq_node hw; rfl
  | popMode => obtain ⟨p, q, args, rfl, -⟩ := form_eq_node hw; rfl
  | _ name =>
      obtain ⟨p, q, args, rfl, hargs⟩ := form_eq_node hw
      obtain ⟨first, rest, rfl, hfirst, hrest⟩ := List.map_eq_cons_iff.mp hargs
      obtain ⟨_, rfl⟩ := form_eq_text hfirst
      rfl

theorem foldlM_addItem_commands {ws : List Sexpr} {commands : List LexerCommand}
    (hws : ws.map Sexpr.form = commands.map commandForm) (a : LexerAlternative) :
    ∃ found, ws.foldlM addItem a = .ok ⟨a.items, a.commands ++ found⟩ ∧
      found.map Prod.fst = commands := by
  induction commands generalizing ws a with
  | nil =>
      obtain rfl := List.map_eq_nil_iff.mp hws
      exact ⟨[], by rw [List.append_nil]; rfl, rfl⟩
  | cons c commands ih =>
      obtain ⟨w, ws, rfl, hw, hrest⟩ := List.map_eq_cons_iff.mp hws
      have hitem : addItem a w = .ok { a with commands := a.commands ++ [(c, w.position)] } := by
        simp [addItem, command?_form hw, bind, Except.bind, pure, Except.pure]
      obtain ⟨found, hfound, hcommands⟩ := ih hrest { a with
        commands := a.commands ++ [(c, w.position)] }
      refine ⟨(c, w.position) :: found, ?_, by rw [List.map_cons, hcommands]⟩
      rw [List.foldlM_cons, hitem]
      rw [List.append_assoc] at hfound
      exact hfound

theorem lexerAlternative_declared {a : Alternative} {w : Sexpr}
    (h : ∀ e ∈ a.elements, e.Writable) (hw : w.form = alternativeForm .lexer a) :
    ∃ found, lexerAlternative w = .ok found ∧ found.unplaced = declaredAlternative a := by
  obtain ⟨p, q, args, rfl, hargs⟩ := form_eq_node hw
  obtain ⟨front, back, rfl, hfront, hback⟩ := List.map_eq_append_iff.mp hargs
  obtain ⟨us, hus, hdeclared⟩ := exprs_declared .lexer a.elements h hfront
  obtain ⟨found, hfound, hcommands⟩ := foldlM_addItem_commands hback ⟨us, []⟩
  refine ⟨⟨us, found⟩, ?_, ?_⟩
  · have halt : lexerAlternative (.list p (.symbol q "alt" :: (front ++ back))) =
        (front ++ back).foldlM addItem ⟨[], []⟩ := rfl
    rw [halt, List.foldlM_append, foldlM_addItem_exprs hus []]
    exact hfound
  · rw [LexerAlternative.unplaced, declaredAlternative, declaredItems, hdeclared, ← hcommands,
      List.map_map]
    rfl

end UnitDecl

end GrammarEngine
