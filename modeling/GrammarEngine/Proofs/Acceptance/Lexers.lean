import GrammarEngine.Proofs.Automaton.Emission
import GrammarEngine.Proofs.Compile.Lexers
import GrammarEngine.Proofs.Unit.Clauses

/-!
# Lexers that compile

A declared lexer compiles if its rules have different names, none of them leads back to itself, and
the modes, tokens and channels that they name are there. Places are only reported, so they have no
part in this.
-/
namespace GrammarEngine

/-! ## Places -/

namespace Automaton

variable {P : String → Prop}

mutual
/-- The induction follows the nesting of expressions. -/
theorem Emits.of_unplaced : ∀ {u : UnitExpr}, Emits P u.unplaced → Emits P u
  | .empty, _ => .empty
  | .seq items, h => by
      cases h with
      | seq hitems => exact .seq (emits_of_unplacedAll hitems)
  | .choice items, h => by
      cases h with
      | choice hitems => exact .choice (emits_of_unplacedAll hitems)
  | .repeated kind isLazy body, h => by
      cases h with
      | repeated _ _ hbody => exact .repeated kind isLazy hbody.of_unplaced
  | .literal text p, _ => .literal text p
  | .ranges ranges negated, _ => .ranges ranges negated
  | .any, _ => .any
  | .ref name p, h => by
      cases h with
      | ref _ hname => exact .ref p hname
  | .token name p, h => nomatch h
  | .notTokens names p, h => nomatch h
  | .eof, h => nomatch h
  | .invoke name precedence p, h => nomatch h

theorem emits_of_unplacedAll : ∀ {items : List UnitExpr},
    (∀ item ∈ UnitExpr.unplacedAll items, Emits P item) → ∀ item ∈ items, Emits P item
  | [], _ => by simp
  | _ :: _, h => List.forall_mem_cons.mpr ⟨(h _ List.mem_cons_self).of_unplaced,
      emits_of_unplacedAll fun item hitem => h item (List.mem_cons_of_mem _ hitem)⟩
end

/-- A table with all its places at the start of the text. -/
def Table.unplaced (table : Table) : Table :=
  table.map fun entry => (entry.1, entry.2.map (List.map UnitExpr.unplaced))

theorem Table.names_unplaced (table : Table) : table.unplaced.names = table.names := by
  rw [Table.names, Table.unplaced, List.map_map]
  rfl

theorem Grounded.of_unplaced {R : String → String → Prop} {table : Table}
    (h : Grounded R table.unplaced) : Grounded R table where
  emits := fun name alternatives hmem items hitems u hu => by
    have hemits := h.emits name _ (List.mem_map_of_mem hmem) _ (List.mem_map_of_mem hitems) _
      (List.mem_map_of_mem hu)
    rw [Table.names_unplaced] at hemits
    exact hemits.of_unplaced
  acyclic := h.acyclic

end Automaton

/-! ## Declarations -/

theorem duplicates_eq_nil {what : String} {names : List NameAt} {seen : List String}
    (hnodup : (names.map NameAt.name).Nodup) (hnew : ∀ n ∈ names, n.name ∉ seen) :
    duplicates what seen names = [] := by
  induction names generalizing seen with
  | nil => rfl
  | cons n rest ih =>
      rw [List.map_cons] at hnodup
      obtain ⟨hfresh, hrest⟩ := List.nodup_cons.mp hnodup
      rw [duplicates, if_neg (by simpa using hnew n List.mem_cons_self)]
      refine ih hrest fun m hm hin => ?_
      rcases List.mem_cons.mp hin with hname | hin
      · exact hfresh (hname ▸ List.mem_map_of_mem hm)
      · exact hnew m (List.mem_cons_of_mem n hm) hin

namespace LexerDecl

variable {d : LexerDecl} {index : UnitIndex}

/-- The names in a rule are there. -/
structure Provided (d : LexerDecl) (r : LexerRuleDecl) : Prop where
  mode : r.mode ∈ d.modes
  token : d.declares r = true
  commands : ∀ a ∈ r.alternatives, ∀ c ∈ a.commands, ∃ action, d.action c.1 = .ok action

/-- Rules that can be compiled, without a library. -/
structure Complete (d : LexerDecl) : Prop where
  base : d.base = none
  distinct : (d.names.map NameAt.name).Nodup
  nonempty : d.rules ≠ []
  grounded : ∃ R, Automaton.Grounded R (d.table none)
  rules : ∀ r ∈ d.rules, d.Provided r

theorem exists_findIdx? {α : Type} {p : α → Bool} {xs : List α}
    (h : ∃ x ∈ xs, p x = true) : ∃ i, xs.findIdx? p = some i := by
  have hfound : (xs.findIdx? p).isSome = true := by
    rw [List.findIdx?_isSome, List.any_eq_true]
    exact h
  exact Option.isSome_iff_exists.mp hfound

theorem exists_modeIndex? {name : String} (h : name ∈ d.modes) :
    ∃ m, d.modeIndex? name = some m := by
  obtain ⟨i, hi⟩ := exists_findIdx? (p := (· == name)) ⟨name, h, beq_self_eq_true name⟩
  exact ⟨.ofNat i, by rw [modeIndex?, hi, Option.map_some]⟩

theorem mem_table_rule {r : LexerRuleDecl} (library : Option LibraryDecl) (hr : r ∈ d.rules) :
    (r.name, r.alternatives.map LexerAlternative.items) ∈ d.table library :=
  List.mem_append_left _ (List.mem_reverse.mpr
    (List.mem_append_left _ (List.mem_map.mpr ⟨r, hr, rfl⟩)))

theorem faults_eq_nil {α : Type} {results : List (Except CompileFault.Located α)}
    (h : ∀ result ∈ results, ∃ a, result = .ok a) : faults results = [] := by
  rw [List.eq_nil_iff_forall_not_mem]
  intro e he
  obtain ⟨a, ha⟩ := h _ (mem_faults.mp he)
  cases ha

theorem exists_compileRule {table : Automaton.Table} {r : LexerRuleDecl} {code : Automaton.Code}
    (hr : d.Provided r)
    (hcode : Automaton.compileRule d.caseInsensitive table r.name
      (r.alternatives.map LexerAlternative.items) = .ok code) :
    ∃ image, d.compileRule table r = .ok image := by
  obtain ⟨m, hm⟩ := exists_modeIndex? hr.mode
  have hactions : (r.alternatives.map fun a => a.commands.map d.actionAt).flatMap faults = [] := by
    rw [List.flatMap_eq_nil_iff]
    intro results hresults
    obtain ⟨a, ha, rfl⟩ := List.mem_map.mp hresults
    refine faults_eq_nil fun result hresult => ?_
    obtain ⟨c, hc, rfl⟩ := List.mem_map.mp hresult
    obtain ⟨action, haction⟩ := hr.commands a ha c hc
    exact ⟨action, by rw [actionAt, haction, Except.mapError]⟩
  simp only [compileRule, hm, hcode, hactions, hr.token, Option.isNone_some, if_true,
    Bool.false_eq_true, if_false, List.append_nil]
  exact ⟨_, rfl⟩

/-- A complete lexer compiles. -/
theorem Complete.exists_compile (h : d.Complete) (index : UnitIndex) :
    ∃ images, d.compile index = .ok images := by
  obtain ⟨R, hgrounded⟩ := h.grounded
  have hrules : ∀ result ∈ d.rules.map (d.compileRule (d.table none)),
      ∃ image, result = .ok image := by
    intro result hresult
    obtain ⟨r, hr, rfl⟩ := List.mem_map.mp hresult
    obtain ⟨code, hcode⟩ := hgrounded.exists_compileRule (mem_table_rule none hr)
    exact exists_compileRule (h.rules r hr) hcode
  have hnone : baseLibrary d.base index = .ok none := by rw [h.base, baseLibrary]
  have hdistinct : duplicates "lexer rule" [] d.names = [] :=
    duplicates_eq_nil h.distinct fun _ _ => List.not_mem_nil
  have hnonempty : d.rules.isEmpty = false := List.isEmpty_eq_false_iff.mpr h.nonempty
  rw [compile, hnone]
  dsimp only
  split
  · exact ⟨_, rfl⟩
  · next hfaults =>
    refine absurd ?_ hfaults
    rw [hdistinct, hnonempty, if_neg Bool.false_ne_true, List.append_nil, List.nil_append,
      List.flatMap_eq_nil_iff]
    intro result hresult
    obtain ⟨image, himage⟩ := hrules result hresult
    rw [himage]

/-- The images of a lexer bear the names of its rules. -/
theorem map_fst_of_compile {images : NamedImages} (h : d.compile index = .ok images) :
    images.map Prod.fst = d.name :: d.rules.map fun r => innerName d.name r.name := by
  obtain ⟨rules, rfl, hunits, -⟩ := lexerImages_of_compile h
  have hnames : d.rules.map (fun r => innerName d.name r.name) =
      rules.map fun r => innerName d.name r.name := hunits
  rw [List.map_cons, List.map_map, hnames]
  rfl

/-! ## Declarations without places -/

theorem table_unplaced (d : LexerDecl) : (d.table none).unplaced = d.unplaced.table none := by
  simp only [table, unplaced, Automaton.Table.unplaced, List.map_append, List.map_reverse,
    List.map_map, List.append_nil]
  congr 2
  refine List.map_congr_left fun r _ => ?_
  simp [LexerRuleDecl.unplaced, LexerAlternative.unplaced]

theorem names_unplaced (d : LexerDecl) :
    d.unplaced.names.map NameAt.name = d.names.map NameAt.name := by
  simp only [names, unplaced, List.map_append, List.map_map]
  rfl

theorem action_unplaced (d : LexerDecl) (c : LexerCommand) : d.unplaced.action c = d.action c := by
  cases c <;> rfl

theorem Complete.of_unplaced (h : d.unplaced.Complete) : d.Complete where
  base := Option.map_eq_none_iff.mp h.base
  distinct := d.names_unplaced ▸ h.distinct
  nonempty := fun hnil => h.nonempty (by rw [unplaced, hnil, List.map_nil])
  grounded := by
    obtain ⟨R, hgrounded⟩ := h.grounded
    exact ⟨R, (d.table_unplaced.symm ▸ hgrounded).of_unplaced⟩
  rules := fun r hr => by
    have hprovided := h.rules r.unplaced (List.mem_map_of_mem hr)
    refine ⟨hprovided.mode, hprovided.token, fun a ha c hc => ?_⟩
    obtain ⟨action, haction⟩ := hprovided.commands a.unplaced (List.mem_map_of_mem ha) (c.1, {})
      (List.mem_map.mpr ⟨c, hc, rfl⟩)
    exact ⟨action, by rw [← haction, action_unplaced]⟩

end LexerDecl

end GrammarEngine
