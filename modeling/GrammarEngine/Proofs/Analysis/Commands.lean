import GrammarEngine.Generation
import GrammarEngine.Proofs.Analysis.Grammars
import GrammarEngine.Proofs.Unit.RoundTrip
import GrammarEngine.Unit.Writer

/-!
# Commands of lexer rules in units

The commands of a lexer rule, those of its own alternatives told apart from those inside its blocks,
and the commands that stand anywhere in a form. What is written for an alternative of a rule holds
the commands of the alternative; what is written for an element holds none.

Every lexer or combined grammar that is analysed leads to a lexer whose unit has a clause for each
of its lexer rules. The clause holds the commands of the rule's own alternatives, all of which have
been checked. Commands inside blocks are neither checked nor written.
-/
namespace GrammarEngine

/-! ## In rules -/

namespace Element

mutual
/-- The commands inside the blocks of an element, in the order in which they are written. -/
def commands : Element → List LexerCommand
  | .block alternatives => commandsInAlternatives alternatives
  | .repeated e _ _ => commands e
  | .not members => commandsInAll members
  | _ => []

def commandsInAll : List Element → List LexerCommand
  | [] => []
  | e :: rest => commands e ++ commandsInAll rest

def commandsInAlternative : AlternativeOf Element → List LexerCommand
  | ⟨elements, _, _, own⟩ => commandsInAll elements ++ own

def commandsInAlternatives : List (AlternativeOf Element) → List LexerCommand
  | [] => []
  | a :: rest => commandsInAlternative a ++ commandsInAlternatives rest
end

end Element

namespace Rule

/-- All commands of a rule, at whatever depth of its blocks. -/
def commands (r : Rule) : List LexerCommand := Element.commandsInAlternatives r.alternatives

/-- The commands of the alternatives of the rule itself. -/
def ownCommands (r : Rule) : List LexerCommand := r.alternatives.flatMap fun a => a.commands

/-- The commands inside blocks of a rule. -/
def blockCommands (r : Rule) : List LexerCommand :=
  r.alternatives.flatMap fun a => Element.commandsInAll a.elements

theorem mem_commands {r : Rule} {c : LexerCommand} :
    c ∈ r.commands ↔ c ∈ r.blockCommands ∨ c ∈ r.ownCommands := by
  simp only [commands, blockCommands, ownCommands]
  induction r.alternatives with
  | nil => simp [Element.commandsInAlternatives]
  | cons a rest ih =>
      obtain ⟨elements, label, rightAssoc, own⟩ := a
      simp only [Element.commandsInAlternatives, Element.commandsInAlternative, List.mem_append,
        List.flatMap_cons, ih]
      exact or_or_or_comm

end Rule

/-! ## In forms -/

namespace Form

/-- The command that a form stands for. -/
def command? : Form → Option LexerCommand
  | .list [.symbol "skip"] => some .skip
  | .list [.symbol "more"] => some .more
  | .list [.symbol "pop-mode"] => some .popMode
  | .list [.symbol "channel", .text name] => some (.channel name)
  | .list [.symbol "type", .text name] => some (.type name)
  | .list [.symbol "mode", .text name] => some (.mode name)
  | .list [.symbol "push-mode", .text name] => some (.pushMode name)
  | _ => none

mutual
/-- The commands that stand in a form, at whatever depth. -/
def commands : Form → List LexerCommand
  | .list items =>
    match command? (.list items) with
    | some c => [c]
    | none => commandsAll items
  | _ => []

def commandsAll : List Form → List LexerCommand
  | [] => []
  | f :: rest => commands f ++ commandsAll rest
end

theorem commandsAll_append (fs gs : List Form) :
    commandsAll (fs ++ gs) = commandsAll fs ++ commandsAll gs := by
  induction fs with
  | nil => rfl
  | cons f rest ih => simp [commandsAll, ih]

theorem commandsAll_eq_flatMap (fs : List Form) : commandsAll fs = fs.flatMap commands := by
  induction fs with
  | nil => rfl
  | cons f rest ih => simp [commandsAll, ih]

/-- The heads of the forms of commands. -/
def commandHeads : List String :=
  ["skip", "more", "pop-mode", "channel", "type", "mode", "push-mode"]

/-- A form with another head holds the commands of its items. -/
theorem commands_node {head : String} (hhead : head ∉ commandHeads) (args : List Form) :
    (node head args).commands = commandsAll args := by
  have hnone : command? (.list (.symbol head :: args)) = none := by
    unfold command?
    split <;> simp_all [commandHeads]
  simp [node, commands, hnone, commandsAll]

end Form

/-! ## In units -/

namespace UnitText

open Form

theorem commands_commandForm (c : LexerCommand) : (commandForm c).commands = [c] := by
  cases c <;> simp [commandForm, node, Form.commands, command?]

theorem commands_setForm (ranges : List (Char × Char)) (negated : Bool) :
    (setForm ranges negated).commands = [] := by
  have hranges : commandsAll (ranges.map rangeForm) = [] := by
    rw [commandsAll_eq_flatMap, List.flatMap_eq_nil_iff]
    intro f hf
    obtain ⟨r, -, rfl⟩ := List.mem_map.mp hf
    rw [rangeForm, commands_node (by decide)]
    rfl
  rw [setForm, commands_node (by cases negated <;> decide), hranges]

theorem commandsAll_texts (names : List String) : commandsAll (names.map .text) = [] := by
  simp [commandsAll_eq_flatMap, Form.commands]

theorem commands_sequenceForm (fs : List Form) :
    (sequenceForm fs).commands = commandsAll fs := by
  match fs with
  | [] => exact commands_node (by decide) _
  | [f] => simp [sequenceForm, commandsAll]
  | _ :: _ :: _ => exact commands_node (by decide) _

theorem commands_choiceForm (fs : List Form) : (choiceForm fs).commands = commandsAll fs := by
  match fs with
  | [] => exact commands_node (by decide) _
  | [f] => simp [choiceForm, commandsAll]
  | _ :: _ :: _ => exact commands_node (by decide) _

theorem repetitionName_not_mem (kind : Repetition) (greedy : Bool) :
    repetitionName kind greedy ∉ commandHeads := by
  cases kind <;> cases greedy <;> decide

variable {kind : RuleKind}

mutual
/-- No command is written for what stands in a block. -/
theorem commands_elementForm : ∀ e : Element, (elementForm kind e).commands = []
  | .literal _ | .rule _ | .ruleAt _ _ => commands_node (by decide) _
  | .token _ => by
    rw [elementForm, commands_node (by split <;> decide)]
    rfl
  | .charSet ranges negated => commands_setForm ranges negated
  | .any | .eof => commands_node (by decide) _
  | .notTokens names => by rw [elementForm, commands_node (by decide), commandsAll_texts]
  | .not members => by
    rw [elementForm]
    split
    · exact commands_setForm _ _
    · rw [commands_node (by decide), commandsAll_texts]
  | .block alternatives => by
    rw [elementForm, commands_choiceForm, commandsAll_blockForms alternatives]
  | .repeated e repetition greedy => by
    rw [elementForm, commands_node (repetitionName_not_mem repetition greedy), commandsAll,
      commands_elementForm e]
    rfl

theorem commandsAll_elementForms : ∀ es : List Element,
    commandsAll (elementForms kind es) = []
  | [] => rfl
  | e :: rest => by
    rw [elementForms, commandsAll, commands_elementForm e, commandsAll_elementForms rest]
    rfl

theorem commands_blockForm : ∀ a : AlternativeOf Element, (blockForm kind a).commands = []
  | ⟨elements, _, _, _⟩ => by
    rw [blockForm, commands_sequenceForm, commandsAll_elementForms elements]

theorem commandsAll_blockForms : ∀ as : List (AlternativeOf Element),
    commandsAll (blockForms kind as) = []
  | [] => rfl
  | a :: rest => by
    rw [blockForms, commandsAll, commands_blockForm a, commandsAll_blockForms rest]
    rfl
end

/-- The commands of an alternative of a rule are written. -/
theorem commands_alternativeForm (a : Alternative) :
    (alternativeForm kind a).commands = a.commands := by
  rw [alternativeForm, commands_node (by decide), commandsAll_append, commandsAll_elementForms,
    List.nil_append]
  induction a.commands with
  | nil => rfl
  | cons c rest ih => simp [commandsAll, commands_commandForm, ih]

/-- The clause of a lexer rule holds the commands of the alternatives of the rule, and no others. -/
theorem commands_lexerRuleClause (r : LexerRuleSpec) :
    (lexerRuleClause r).form.commands = r.alternatives.flatMap fun a => a.commands := by
  have hlines : commandsAll (r.alternatives.map (alternativeForm .lexer)) =
      r.alternatives.flatMap fun a => a.commands := by
    simp [commandsAll_eq_flatMap, List.flatMap_map, commands_alternativeForm]
  rw [← hlines, Clause.form, lexerRuleClause]
  cases r.tokenType with
  | none => exact commands_node (by decide : "fragment" ∉ commandHeads) _
  | some type => exact commands_node (by decide : "rule" ∉ commandHeads) _

end UnitText

/-! ## In the units of lexers -/

/-- What a clause says of a lexer rule and its commands, for a lexer with the given modes, channels
and tokens. -/
structure WrittenRule (l : LexerSpec) (r : Rule) (c : Clause) : Prop where
  first : (r.fragment = true ∧ c.first = [.symbol "fragment", .text r.name]) ∨
    r.fragment = false ∧
      ∃ type, c.first = [.symbol "rule", .text r.name, .nat type, .text r.mode]
  /-- The commands of the clause are those of the rule's own alternatives, in their order. -/
  commands : c.form.commands = r.ownCommands
  /-- What they refer to is there. -/
  checked : ∀ k ∈ r.ownCommands, LexerSpec.checkCommand l.channels l.modes l.vocabulary k = .ok ()
  /-- No command of the rule is lost exactly if its blocks have no commands of their own. -/
  complete : r.commands ⊆ c.form.commands ↔ r.blockCommands ⊆ r.ownCommands

namespace LexerSpec

variable {channels modes : List String} {before after : List TokenSpec}

theorem hasName_of_initial (h : before <+: after) {name : String}
    (hname : hasName before name = true) : hasName after name = true := by
  obtain ⟨t, ht, hname⟩ := hasName_iff.mp hname
  exact hasName_iff.mpr ⟨t, h.subset ht, hname⟩

/-- A command stays right when tokens are added. -/
theorem checkCommand_of_initial (h : before <+: after) {c : LexerCommand}
    (hc : checkCommand channels modes before c = .ok ()) :
    checkCommand channels modes after c = .ok () := by
  cases c with
  | type name =>
      simp only [checkCommand] at hc ⊢
      cases hname : hasName before name with
      | true => rw [if_pos (hasName_of_initial h hname)]
      | false => simp [hname] at hc
  | _ => exact hc

/-- What is written for a rule that has been built. -/
theorem writtenRule_of_builtRule {g : Grammar} {names : Names} {r : Rule} {built : LexerRuleSpec}
    {l : LexerSpec} (h : BuiltRule g names before r built)
    (htoken : r.fragment = false → hasName before r.name = true)
    (hchannels : l.channels = g.channels) (hmodes : l.modes = defaultMode :: g.modes)
    (hvocabulary : before <+: l.vocabulary) :
    WrittenRule l r (UnitText.lexerRuleClause built) := by
  have hown : (UnitText.lexerRuleClause built).form.commands = r.ownCommands := by
    rw [UnitText.commands_lexerRuleClause, Rule.ownCommands]
    have hall := h.alternatives
    generalize r.alternatives = as at hall ⊢
    generalize built.alternatives = bs at hall ⊢
    induction hall with
    | nil => rfl
    | cons hab _ ih =>
        rw [List.flatMap_cons, List.flatMap_cons, commands_of_resolveAlternative hab.1, ih]
  refine ⟨?_, hown, fun k hk => ?_, ?_⟩
  · cases hfragment : r.fragment with
    | true =>
        refine .inl ⟨rfl, ?_⟩
        simp [UnitText.lexerRuleClause, h.tokenType, hfragment, h.name]
    | false =>
        obtain ⟨t, -, htype⟩ := typeOf?_of_hasName (htoken hfragment)
        refine .inr ⟨rfl, t.type, ?_⟩
        simp [UnitText.lexerRuleClause, h.tokenType, hfragment, htype, h.name, h.mode]
  · obtain ⟨a, ha, hk⟩ := List.mem_flatMap.mp hk
    obtain ⟨b, -, -, hcheck⟩ := exists_of_mem_right h.alternatives.flip ha
    rw [hchannels, hmodes]
    exact checkCommand_of_initial hvocabulary (hcheck k hk)
  · rw [hown]
    constructor
    · exact fun hsub c hc => hsub (Rule.mem_commands.mpr (.inl hc))
    · exact fun hsub c hc => (Rule.mem_commands.mp hc).elim (fun hblock => hsub hblock) id

end LexerSpec

/-- The unit of a lexer, whatever file it names, ends with the clauses of the given rules. -/
def WritesRules (l : LexerSpec) (rules : List Rule) : Prop :=
  ∀ file, ∃ others written, (UnitText.ofLexer l file).clauses = others ++ written ∧
    List.Forall₂ (WrittenRule l) rules written

theorem LexerSpec.Built.writesRules {g : Grammar} {unit : String} {rules : List Rule}
    {literals : List String} {l l' : LexerSpec} (h : LexerSpec.Built g unit rules literals l)
    (hl' : l' = { l with vocabulary := l'.vocabulary }) (hgrow : l.vocabulary <+: l'.vocabulary) :
    WritesRules l' rules := by
  intro file
  obtain ⟨written, hwritten, hbuilt⟩ := h.rules
  have hrules : l'.rules = l.rules := by rw [hl']
  have hchannels : l'.channels = g.channels := by rw [hl', ← h.channels]
  have hmodes : l'.modes = defaultMode :: g.modes := by rw [hl', ← h.modes]
  have htoken : ∀ r ∈ rules, r.fragment = false →
      LexerSpec.hasName l.vocabulary r.name = true := fun r hr hfragment => by
    rw [h.vocabulary]
    exact LexerSpec.hasName_of_rule (List.mem_filter.mpr ⟨hr, by simp [hfragment]⟩)
  refine ⟨?_, written.map UnitText.lexerRuleClause, ?clauses, ?rules⟩
  case clauses =>
    simp only [UnitText.ofLexer, hrules, hwritten, List.map_append]
    rw [← List.append_assoc]
  case rules =>
    refine List.forall₂_map_right_iff.mpr
      (((List.forall₂_and_left rules written).mpr ⟨htoken, hbuilt⟩).imp fun r w hw => ?_)
    exact LexerSpec.writtenRule_of_builtRule hw.2 hw.1 hchannels hmodes hgrow

namespace Analysis

/-- Adding a grammar with lexer rules adds a lexer that writes them, and keeps the lexers before. -/
theorem writesRules_of_addGrammar {package : Option String} {p p' : Progress} {g : Grammar}
    (hg : ∀ r ∈ g.rules, r.FromFile) (h : addGrammar package p g = .ok p') :
    p.lexers ⊆ p'.lexers ∧ (g.kind ≠ .parser →
      ∃ l ∈ p'.lexers, l.grammar = g.name ∧ WritesRules l (g.rules.filter Rule.isLexerRule)) := by
  have hstep := step_of_addGrammar hg h
  cases hstep with
  | @lexer l hkind hbuilt =>
      refine ⟨List.subset_append_left _ _, fun _ => ⟨l, by simp, hbuilt.grammar, ?_⟩⟩
      have hall : g.rules.filter Rule.isLexerRule = g.rules := by
        rw [addGrammar, hkind] at h
        dsimp only [addLexerGrammar] at h
        cases hfind : g.rules.find? (fun r => !r.isLexerRule) with
        | some r =>
            rw [hfind] at h
            cases h
        | none =>
            rw [List.filter_eq_self]
            simpa using hfind
      rw [hall]
      exact hbuilt.writesRules rfl (List.prefix_refl _)
  | @combinedLexer l _ _ hbuilt =>
      exact ⟨List.subset_append_left _ _, fun _ => ⟨l, by simp, hbuilt.grammar,
        hbuilt.writesRules rfl (List.prefix_refl _)⟩⟩
  | @combined l l' _ _ _ hbuilt hparser =>
      refine ⟨List.subset_append_left _ _, fun _ => ⟨l', by simp, ?_,
        hbuilt.writesRules hparser.completes hparser.grows.isPrefix⟩⟩
      rw [hparser.completes, ← hbuilt.grammar]
  | parser hkind => exact ⟨List.Subset.refl _, fun hne => absurd hkind hne⟩

theorem writesRules_of_foldlM {package : Option String} {roots : List Grammar} {p p' : Progress}
    (hroots : ∀ g ∈ roots, ∀ r ∈ g.rules, r.FromFile)
    (h : roots.foldlM (addGrammar package) p = .ok p') :
    p.lexers ⊆ p'.lexers ∧ ∀ g ∈ roots, g.kind ≠ .parser →
      ∃ l ∈ p'.lexers, l.grammar = g.name ∧ WritesRules l (g.rules.filter Rule.isLexerRule) := by
  induction roots generalizing p with
  | nil =>
      obtain rfl := Except.ok.inj h
      exact ⟨List.Subset.refl _, by simp⟩
  | cons g rest ih =>
      rw [List.foldlM_cons, bind_eq_ok] at h
      obtain ⟨q, hq, h⟩ := h
      obtain ⟨hkeep, hfirst⟩ := writesRules_of_addGrammar (hroots g List.mem_cons_self) hq
      obtain ⟨hlater, hrest⟩ := ih (fun k hk => hroots k (List.mem_cons_of_mem g hk)) h
      refine ⟨List.Subset.trans hkeep hlater, List.forall_mem_cons.mpr ⟨fun hkind => ?_, hrest⟩⟩
      obtain ⟨l, hl, hwrites⟩ := hfirst hkind
      exact ⟨l, hlater hl, hwrites⟩

/-- All roots have been added, each once. -/
theorem exists_roots {grammars : List Grammar} {package : Option String} {a : Analysis}
    (h : ofGrammars grammars package = .ok a) :
    ∃ (roots order : List Grammar) (p : Progress), Imports.roots grammars = .ok roots ∧
      (∀ g, g ∈ order ↔ g ∈ roots) ∧
      order.foldlM (addGrammar package) {} = .ok p ∧ a.lexers = p.lexers := by
  obtain ⟨roots, order, p, hroots, -, horder, hp, hlexers, -⟩ := roots_of_ofGrammars h
  exact ⟨roots, order, p, hroots, fun g => horder.mem_iff, hp, hlexers⟩

end Analysis

namespace Imports

theorem subset_addRules (rules more : List Rule) : rules ⊆ addRules rules more :=
  List.foldlRecOn (motive := fun acc => rules ⊆ acc) more _ (List.Subset.refl _)
    fun acc hacc r _ => by
      split
      · exact hacc
      · exact List.subset_append_of_subset_left _ hacc

/-- No rule of a grammar is lost when its imports are merged. -/
theorem rules_subset_of_merge {all : List Grammar} {bound : Nat} {chain : List String}
    {g merged : Grammar} (h : merge all bound chain g = .ok merged) : g.rules ⊆ merged.rules := by
  cases bound with
  | zero => cases h
  | succ bound =>
      rw [merge] at h
      split at h
      · cases h
      · refine foldlM_invariant (fun m : Grammar => g.rules ⊆ m.rules) (List.Subset.refl _) ?_ h
        intro name _ b b' hb hstep
        split at hstep
        · cases hstep
        · obtain ⟨inner, -, rfl⟩ := map_eq_ok.mp hstep
          exact List.Subset.trans hb (subset_addRules _ _)

/-- A grammar that no other one imports is a root. -/
theorem exists_root {all roots : List Grammar} (h : Imports.roots all = .ok roots) {g : Grammar}
    (hg : g ∈ all) (hnone : ∀ k ∈ all, g.name ∉ k.imports) :
    ∃ merged ∈ roots, mergeRoot all g = .ok merged := by
  have hroot : g ∈ all.filter fun g => !(all.flatMap Grammar.imports).contains g.name := by
    simpa [hg] using hnone
  exact exists_of_mem_right (mapM_eq_ok.mp (mapM_of_roots h).2).flip hroot

end Imports

/-- Every lexer or combined grammar of files that are read and analysed, unless another one imports
it, leads to a lexer whose unit has, in the order of the rules, one clause for each lexer rule of
the grammar and of what it imports. The clause holds the commands of the rule's own alternatives,
and these refer to what is there; none of the rule's commands is lost exactly if all those inside
its blocks are commands of its own alternatives, too. -/
theorem Analysis.commands_written {files : List GrammarFile} {grammars : List Grammar}
    {warnings : List Warning} {package : Option String} {a : Analysis}
    (hread : GeneratedUnits.readFiles files = .ok (grammars, warnings))
    (ha : Analysis.ofGrammars grammars package = .ok a) :
    ∀ g ∈ grammars, (∀ k ∈ grammars, g.name ∉ k.imports) → g.kind ≠ .parser →
      ∃ merged, Imports.mergeRoot grammars g = .ok merged ∧ g.rules ⊆ merged.rules ∧
        ∃ l ∈ a.lexers, l.grammar = g.name ∧
          ∀ file, ∃ others written, (UnitText.ofLexer l file).clauses = others ++ written ∧
            List.Forall₂ (WrittenRule l) (merged.rules.filter Rule.isLexerRule) written := by
  intro g hg hnone hkind
  have hfiles := GeneratedUnits.fromFile_of_readFiles hread
  obtain ⟨roots, order, p, hroots, horder, hp, hlexers⟩ := exists_roots ha
  obtain ⟨merged, hmerged, hmerge⟩ := Imports.exists_root hroots hg hnone
  have hof := Imports.merge_mergeOf _ hg hmerge
  have hrules : ∀ k ∈ order, ∀ r ∈ k.rules, r.FromFile := fun k hk => by
    obtain ⟨k₀, hk₀, hmergeOf⟩ := Imports.roots_mergeOf hroots k ((horder k).mp hk)
    exact (hmergeOf.fromFile hk₀ hfiles).rules
  obtain ⟨l, hl, hgrammar, hwrites⟩ := (writesRules_of_foldlM hrules hp).2 merged
    ((horder merged).mpr hmerged) (hof.kind ▸ hkind)
  exact ⟨merged, hmerge, Imports.rules_subset_of_merge hmerge, l, hlexers ▸ hl,
    hgrammar.trans hof.name, hwrites⟩

/-- Two rules whose first alternatives end a block with a command. -/
def quotedFiles : List GrammarFile :=
  [⟨"Q.g4", "lexer grammar Q;\nA : ('a' -> skip | 'b') ;\nB : ('c' -> skip | 'd') -> skip ;\n"⟩]

/-- Whether files hold one lexer grammar that imports nothing and can be analysed, with these
commands in its rules and these as commands of their own. -/
def hasCommands (files : List GrammarFile) (commands own : List (List LexerCommand)) : Bool :=
  match GeneratedUnits.readFiles files with
  | .ok ([g], _) =>
    (Analysis.ofGrammars [g] none).isOk && g.kind == .lexer && g.imports.isEmpty &&
      g.rules.all Rule.isLexerRule && g.rules.map Rule.commands == commands &&
      g.rules.map Rule.ownCommands == own
  | _ => false

/-- The command of the first rule is lost, as no alternative of the rule itself has it. The second
rule has the command behind its block, too. -/
theorem Analysis.quoted_commands_written :
    ∃ grammars warnings a g l others first second,
      GeneratedUnits.readFiles quotedFiles = .ok (grammars, warnings) ∧
      Analysis.ofGrammars grammars none = .ok a ∧ g ∈ grammars ∧
      (∀ k ∈ grammars, g.name ∉ k.imports) ∧ g.kind ≠ .parser ∧
      g.rules.map Rule.commands = [[.skip], [.skip, .skip]] ∧ l ∈ a.lexers ∧
      (UnitText.ofLexer l "Q.g4").clauses = others ++ [first, second] ∧
      first.form.commands = [] ∧ second.form.commands = [.skip] := by
  have hcheck : hasCommands quotedFiles [[.skip], [.skip, .skip]] [[], [.skip]] = true := by
    decide +kernel
  unfold hasCommands at hcheck
  cases hread : GeneratedUnits.readFiles quotedFiles with
  | error e => simp [hread] at hcheck
  | ok found =>
      obtain ⟨grammars, warnings⟩ := found
      rcases grammars with _ | ⟨g, _ | ⟨other, rest⟩⟩
      · simp [hread] at hcheck
      · cases ha : Analysis.ofGrammars [g] none with
        | error e => simp [hread, ha, Except.isOk, Except.toBool] at hcheck
        | ok a =>
            simp only [hread, ha, Except.isOk, Except.toBool, Bool.true_and, Bool.and_eq_true,
              beq_iff_eq, List.isEmpty_iff] at hcheck
            obtain ⟨⟨⟨⟨hkind, himports⟩, hlexer⟩, hcommands⟩, hown⟩ := hcheck
            have hnone : ∀ k ∈ [g], g.name ∉ k.imports := by simp [himports]
            have hne : g.kind ≠ .parser := by simp [hkind]
            obtain ⟨merged, hmerge, -, l, hl, -, hwritten⟩ :=
              commands_written hread ha g List.mem_cons_self hnone hne
            obtain rfl : g = merged := by
              simpa [Imports.mergeRoot, Imports.merge, himports, pure, Except.pure] using hmerge
            obtain ⟨others, written, hclauses, hall⟩ := hwritten "Q.g4"
            rw [List.filter_eq_self.mpr (List.all_eq_true.mp hlexer)] at hall
            have howns : written.map (fun c => c.form.commands) = [[], [.skip]] := by
              rw [← hown, ← List.forall₂_eq_eq_eq, List.forall₂_map_left_iff,
                List.forall₂_map_right_iff]
              exact (hall.imp fun r c h => h.commands).flip
            obtain ⟨first, second, rfl⟩ :=
              List.length_eq_two.mp (by simpa using congrArg List.length howns)
            obtain ⟨hfirst, hsecond⟩ : first.form.commands = [] ∧
                second.form.commands = [.skip] := by simpa using howns
            exact ⟨[g], warnings, a, g, l, others, first, second, rfl, ha,
              List.mem_cons_self, hnone, hne, hcommands, hl, hclauses, hfirst, hsecond⟩
      · simp [hread] at hcheck

end GrammarEngine
