import GrammarEngine.Proofs.Automaton.Instructions
import GrammarEngine.Proofs.Compile.Lexers
import GrammarEngine.Proofs.Lexer.MaximalMunch
import GrammarEngine.Proofs.Unit.Clauses

/-!
# Rules that are one literal

A rule that is one literal and nothing else becomes code that reads the characters of the literal
and reports its only alternative, which has no actions. Rules of the same literal therefore match
alike on every text, and of such rules the first one wins.
-/
namespace GrammarEngine

open LexerCode

/-! ## Code -/

namespace Automaton

variable {ignoreCase : Bool} {see : Char → Char}

/-- The code of a rule that is one literal. -/
def literalCode (ignoreCase : Bool) (text : String) : List Instruction :=
  text.toList.map (charInstruction ignoreCase) ++ [.accept 0]

theorem compileRule_literal (ignoreCase : Bool) (table : Table) (name text : String)
    (p : Position) : compileRule ignoreCase table name [[.literal text p]] =
      .ok ⟨literalCode ignoreCase text, false⟩ := by
  simp only [compileRule, List.map_cons, List.map_nil, emitters, emitter]
  rw [ruleEmitter_singleton_eq_ok]
  refine ⟨⟨text.toList.map (charInstruction ignoreCase), false⟩, ?_, rfl⟩
  rw [sequence_cons_eq_ok]
  refine ⟨⟨text.toList.map (charInstruction ignoreCase), false⟩, rfl, {}, rfl, ?_⟩
  change Code.mk (_ ++ []) (false || false) = _
  rw [List.append_nil, Bool.or_false]

theorem onlyReads_charInstruction (ignoreCase : Bool) (c : Char) :
    OnlyReads (charInstruction ignoreCase c) := by
  dsimp only [charInstruction]
  split <;> exact ⟨rfl, rfl⟩

/-- A text whose characters are read by the instructions that are written for them. -/
def Legible (ignoreCase : Bool) (see : Char → Char) (text : String) : Prop :=
  text ≠ "" ∧ ∀ c ∈ text.toList, reads (see c) (charInstruction ignoreCase c) = true

/-- Where case counts, characters that are seen as they are can be read. -/
theorem legible_of_unfolded {text : String} (hne : text ≠ "")
    (hsee : ∀ c ∈ text.toList, see c = c) : Legible false see text :=
  ⟨hne, fun c hc => reads_charInstruction.mpr (hsee c hc).symm⟩

/-- The code of a literal reads all of a legible text. -/
theorem ends_literalCode {text : String} (h : Legible ignoreCase see text) :
    Ends (literalCode ignoreCase text).toArray see (start (literalCode ignoreCase text).toArray) 0
      text.toList text.toList.length 0 := by
  refine ⟨text.toList, [], (List.append_nil _).symm, (Nat.zero_add _).symm, ?_⟩
  have hplaced : Placed (literalCode ignoreCase text).toArray 0
      (⟨text.toList.map (charInstruction ignoreCase), false⟩ ++ accept 0) :=
    ⟨[], List.append_nil _⟩
  have hreads := realizes_reads false (fun i hi => by
    obtain ⟨c, -, rfl⟩ := List.mem_map.mp hi
    exact onlyReads_charInstruction ignoreCase c) hplaced.append.1
  have hword : List.Forall₂ (fun i c => reads c i = true)
      (text.toList.map (charInstruction ignoreCase)) (text.toList.map see) := by
    rw [List.forall₂_map_left_iff, List.forall₂_map_right_iff, List.forall₂_same]
    exact h.2
  have hreport := hplaced.append.2.get
  rw [Code.size] at hreport
  obtain ⟨n, hpath⟩ := hreads.complete _ [] 0 0 hword (.stop hreport)
  rw [List.append_nil] at hpath
  exact (awaits_start _ _).mpr ⟨n, hpath⟩

end Automaton

/-! ## Rules -/

/-- A rule that looks for its longest match finds the whole text where it can. -/
theorem LexerRule.match?_of_ends {r : LexerRule} {see : Char → Char} {text : List Char} {a : Nat}
    (hlongest : r.shortest = false) (h : Ends r.code see (start r.code) 0 text text.length a) :
    ∃ m, r.match? see text = some m ∧ m.length = text.length := by
  have hlatest : Latest (Ends r.code see (start r.code) 0 text) (r.match? see text) := by
    rw [match?, hlongest, if_neg Bool.false_ne_true]
    exact longest?_latest start_closed 0 text
  cases hm : r.match? see text with
  | none =>
      rw [hm] at hlatest
      exact absurd h (hlatest _ _)
  | some m =>
      rw [hm] at hlatest
      obtain ⟨⟨⟨b, hb⟩, hgreatest⟩, -⟩ := hlatest
      refine ⟨m, rfl, Nat.le_antisymm ?_ (hgreatest ⟨a, h⟩)⟩
      simpa using hb.stop_le

/-- The rule of one literal, as it is loaded. -/
def LexerRule.literal (ignoreCase : Bool) (name : String) (type : TokenType) (mode : UInt32)
    (text : String) : LexerRule :=
  ⟨name, type, mode, false, (Automaton.literalCode ignoreCase text).toArray, #[[]]⟩

theorem LexerRule.match?_literal {ignoreCase : Bool} {see : Char → Char} {text : String}
    (h : Automaton.Legible ignoreCase see text) (name : String) (type : TokenType)
    (mode : UInt32) :
    ∃ m, (literal ignoreCase name type mode text).match? see text.toList = some m ∧
      m.length = text.toList.length :=
  match?_of_ends rfl (Automaton.ends_literalCode h)

/-- A token of a literal is neither dropped nor continued, and the mode stays. -/
theorem LexerProgram.Winner.effect_of_literal {w : Winner} {ignoreCase : Bool} {name text : String}
    {type : TokenType} {mode : UInt32} (h : w.rule = .literal ignoreCase name type mode text)
    (modes : ModeState) : w.effect modes = { type, modes } := by
  rw [effect, h]
  cases halternative : w.alternative with
  | zero => rfl
  | succ n => rfl

/-- Of rules that match alike the first one wins. -/
theorem LexerProgram.LongestFirst.head?_filter {rules : List LexerRule} {see : Char → Char}
    {mode : UInt32} {text : List Char} {r : LexerRule} {m : Match} {p : LexerRule → Bool}
    (h : LongestFirst rules see mode text r m) (hr : p r = true)
    (halike : ∀ q ∈ rules, p q = true → q.mode = mode ∧ q.match? see text = r.match? see text) :
    (rules.filter p).head? = some r := by
  obtain ⟨front, back, rfl, hfront, -⟩ := h.first
  have hnone : front.filter p = [] := by
    refine List.filter_eq_nil_iff.mpr fun q hq hp => ?_
    obtain ⟨hmode, hmatch⟩ := halike q (List.mem_append_left _ hq) hp
    exact Nat.lt_irrefl _ (hfront q hq hmode m (hmatch.trans h.found))
  rw [List.filter_append, hnone, List.nil_append, List.filter_cons_of_pos hr, List.head?_cons]

/-! ## Compiled lexers -/

namespace LexerDecl

variable {d : LexerDecl} {table : Automaton.Table} {r : LexerRuleDecl} {image : LexerRuleImage}

/-- An alternative that is one literal. -/
def literalAlternative (text : String) : LexerAlternative := ⟨[.literal text {}], []⟩

theorem eq_of_unplaced_literal {a : LexerAlternative} {text : String}
    (h : a.unplaced = literalAlternative text) : ∃ p, a = ⟨[.literal text p], []⟩ := by
  obtain ⟨items, commands⟩ := a
  obtain ⟨hitems, hcommands⟩ := LexerAlternative.mk.inj h
  obtain ⟨u, rfl, hu⟩ := List.map_eq_singleton_iff.mp hitems
  obtain rfl := List.map_eq_nil_iff.mp hcommands
  cases u with
  | literal found p =>
      obtain ⟨rfl, -⟩ := UnitExpr.literal.inj hu
      exact ⟨p, rfl⟩
  | _ => cases hu

theorem compileRule_literal {text : String} (h : d.compileRule table r = .ok image)
    (hliteral : r.unplaced.alternatives = [literalAlternative text]) :
    ∃ mode, d.modeIndex? r.mode = some mode ∧
      image = ⟨r.name, r.type, mode, false,
        Automaton.literalCode d.caseInsensitive text, [[]]⟩ := by
  obtain ⟨a, halternatives, ha⟩ := List.map_eq_singleton_iff.mp hliteral
  obtain ⟨p, rfl⟩ := eq_of_unplaced_literal ha
  obtain ⟨-, -, -, hmode, -, -⟩ := compileRule_cases h
  refine ⟨image.mode, hmode, ?_⟩
  simp only [compileRule, halternatives, List.map_cons, List.map_nil,
    Automaton.compileRule_literal] at h
  split at h
  · next code hcode _ =>
    obtain rfl := Except.ok.inj hcode
    obtain rfl := Except.ok.inj h
    rfl
  · cases h
  · next hcode => cases hcode

end LexerDecl

namespace LexerSpec

variable {l : LexerSpec} {p : LexerProgram}

/-- A program that a lexer becomes once it has been written, compiled and loaded. -/
def Becomes (l : LexerSpec) (p : LexerProgram) : Prop :=
  ∃ (d : LexerDecl) (index : UnitIndex) (rules : List LexerRuleImage), d.unplaced = l.declared ∧
    d.compile index = .ok ((d.name, .lexerHeader d.header) ::
      rules.map fun r => (innerName d.name r.name, .lexerRule r)) ∧
    LexerProgram.ofImages d.header rules = .ok p

/-- Whatever can be compiled can be loaded. -/
theorem exists_becomes {index : UnitIndex} {images : NamedImages}
    (h : l.declared.compile index = .ok images) : ∃ p, l.Becomes p := by
  obtain ⟨rules, himages, -, hsound⟩ := LexerDecl.lexerImages_of_compile h
  obtain ⟨p, hp, -⟩ := LexerProgram.exists_ofImages hsound
  exact ⟨p, l.declared, index, rules, l.unplaced_declared, himages ▸ h, hp⟩

/-- What becomes of a declared rule. -/
structure RuleBecomes (l : LexerSpec) (r : LexerRuleDecl) (q : LexerRule) : Prop where
  name : q.name = r.name
  literal : ∀ text, r.alternatives = [LexerDecl.literalAlternative text] →
    ∃ mode, l.declared.modeIndex? r.mode = some mode ∧
      q = .literal l.caseInsensitive r.name r.type mode text

theorem ruleBecomes_of_loadRule {d : LexerDecl} {header : LexerHeader} {table : Automaton.Table}
    {r : LexerRuleDecl} {image : LexerRuleImage} {q : LexerRule} (hd : d.unplaced = l.declared)
    (hcompile : d.compileRule table r = .ok image)
    (hload : LexerProgram.loadRule header image = .ok q) : RuleBecomes l r.unplaced q := by
  have hmodes : l.declared.modes = d.modes := by
    rw [← hd]
    rfl
  have hcase : l.declared.caseInsensitive = d.caseInsensitive := by
    rw [← hd]
    rfl
  obtain rfl : q = ⟨image.name, image.tokenType, image.mode, image.shortest,
      image.program.toArray, image.actions.toArray⟩ := by
    unfold LexerProgram.loadRule at hload
    split at hload
    · cases hload
    · exact (Except.ok.inj hload).symm
  refine ⟨(LexerDecl.compileRule_resolved hcompile).1, fun text hliteral => ?_⟩
  obtain ⟨mode, hmode, rfl⟩ := LexerDecl.compileRule_literal hcompile hliteral
  refine ⟨mode, ?_, ?_⟩
  · rw [LexerDecl.modeIndex?, hmodes]
    exact hmode
  · rw [← hcase]
    rfl

/-- The rules of a program are those that the lexer declares, in order. -/
theorem rules_of_becomes (h : l.Becomes p) :
    List.Forall₂ (RuleBecomes l) l.declared.rules p.rules := by
  obtain ⟨d, index, images, hd, hcompile, hload⟩ := h
  obtain ⟨library, images', -, himages, hrules⟩ := LexerDecl.compile_cases hcompile
  have hsame : images' = images := by
    have hinjective : Function.Injective fun r : LexerRuleImage =>
        (innerName d.name r.name, UnitImage.lexerRule r) :=
      fun r r' hr => UnitImage.lexerRule.inj (Prod.mk.inj hr).2
    exact (List.map_injective_iff.mpr hinjective (List.cons.inj himages).2).symm
  subst hsame
  obtain ⟨loaded, hloaded, hp⟩ := bind_eq_ok.mp hload
  obtain rfl := Except.ok.inj hp
  rw [← congrArg LexerDecl.rules hd]
  refine List.forall₂_map_left_iff.mpr (forall₂_trans hrules (mapM_eq_ok.mp hloaded) ?_)
  exact fun r image q hr hq => ruleBecomes_of_loadRule hd hr hq

theorem nodup_of_becomes (h : l.Becomes p) :
    (l.declared.rules.map LexerRuleDecl.name).Nodup := by
  obtain ⟨d, index, images, hd, hcompile, -⟩ := h
  have hnames : l.declared.rules.map LexerRuleDecl.name = d.rules.map LexerRuleDecl.name := by
    rw [← congrArg LexerDecl.rules hd]
    exact List.map_map
  have hall : d.names.map NameAt.name =
      d.rules.map LexerRuleDecl.name ++ d.fragments.map FragmentDecl.name := by
    simp [LexerDecl.names, Function.comp_def]
  rw [hnames]
  exact (hall ▸ LexerDecl.nodup_names_of_compile hcompile).sublist (List.sublist_append_left _ _)

end LexerSpec

/-! ## Preference -/

namespace LexerProgram

variable {p : LexerProgram} {ignoreCase : Bool} {names : List String} {text : String}

/-- A program with no rules but those of these names. -/
def among (p : LexerProgram) (names : List String) : LexerProgram :=
  { p with rules := p.rules.filter fun r => names.contains r.name }

/-- Of its rules of these names, which stand for a literal, a program prefers the one of a name,
which makes a token of a type. -/
structure Prefers (p : LexerProgram) (ignoreCase : Bool) (names : List String)
    (text name : String) (type : TokenType) : Prop where
  /-- Whatever is read in the mode of the start, no other one of them wins. -/
  wins : ∀ see input w, p.winner? see 0 input = some w → w.rule.name ∈ names →
    w.rule.name = name ∧ ∀ modes, w.effect modes = { type, modes }
  /-- By themselves they make one token of the literal. -/
  tokens : ∀ s : CharStream, s.text.toList = text.toList →
    Automaton.Legible ignoreCase s.folding.fold text →
    ((p.among names).tokenize s).tokens.map Token.type = [type, TokenType.eof] ∧
      ((p.among names).tokenize s).faults = []

/-- A text that a rule matches as a whole, without actions, is one token. -/
theorem tokenize_of_winner? {s : CharStream} {w : Winner} {type : TokenType}
    (hw : p.winner? s.folding.fold 0 s.text.toList = some w)
    (hlength : w.length = s.text.toList.length)
    (heffect : ∀ modes, w.effect modes = { type, modes }) :
    (p.tokenize s).tokens.map Token.type = [type, TokenType.eof] ∧ (p.tokenize s).faults = [] := by
  have hmatches := matches_of_winner? hw
  have hpieces : p.pieces s.folding {} none {} s.text.toList =
      [⟨{}, Place.after {} s.text.toList, .token type defaultChannel⟩] := by
    rw [pieces_of_winner (w := w) hmatches.pos hmatches.length_le hw, heffect, hlength,
      List.take_length, List.drop_length]
    simp only [MatchEffect.kind?, Bool.false_eq_true, if_false, pieces]
    rfl
  rw [tokenize, hpieces]
  exact ⟨rfl, rfl⟩

theorem among_among (p : LexerProgram) (names : List String) :
    (p.among names).among names = p.among names := by
  simp [among]

theorem longestFirst_of_winner? {see : Char → Char} {mode : UInt32} {input : List Char} {w : Winner}
    (h : p.winner? see mode input = some w) :
    ∃ m, LongestFirst p.rules see mode input w.rule m ∧ w.length = m.length := by
  rcases contend_cases p.rules see mode input with ⟨hnone, -⟩ | ⟨r, m, hsome, hlongest⟩
  · cases hnone.symm.trans h
  · obtain rfl := Option.some.inj (hsome.symm.trans h)
    exact ⟨m, hlongest, rfl⟩

/-- All rules of these names are a literal in the mode of the start. -/
def Alike (p : LexerProgram) (ignoreCase : Bool) (names : List String) (text : String) : Prop :=
  ∀ q ∈ (p.among names).rules, ∃ name type, q = .literal ignoreCase name type 0 text

/-- Of rules of one literal only the first one wins. -/
theorem Alike.head?_among (h : p.Alike ignoreCase names text) {see : Char → Char}
    {input : List Char} {w : Winner} (hw : p.winner? see 0 input = some w)
    (hname : w.rule.name ∈ names) : (p.among names).rules.head? = some w.rule := by
  obtain ⟨m, hlongest, -⟩ := longestFirst_of_winner? hw
  have hmem : ∀ q ∈ p.rules, names.contains q.name = true → q ∈ (p.among names).rules :=
    fun q hq hin => List.mem_filter.mpr ⟨hq, hin⟩
  have hcontains : names.contains w.rule.name = true := List.contains_iff_mem.mpr hname
  refine hlongest.head?_filter hcontains fun q hq hin => ?_
  obtain ⟨name, type, hliteral⟩ := h _ (hmem w.rule hlongest.mem hcontains)
  obtain ⟨name', type', rfl⟩ := h q (hmem q hq hin)
  rw [hliteral]
  exact ⟨rfl, rfl⟩

/-- Rules of one literal win by themselves where it can be read. -/
theorem Alike.exists_winner? (h : p.Alike ignoreCase names text)
    (hne : (p.among names).rules ≠ []) {see : Char → Char}
    (hlegible : Automaton.Legible ignoreCase see text) :
    ∃ w, (p.among names).winner? see 0 text.toList = some w ∧
      w.length = text.toList.length := by
  obtain ⟨q, hq⟩ := List.exists_mem_of_ne_nil _ hne
  obtain ⟨name, type, rfl⟩ := h q hq
  obtain ⟨m, hm, hlength⟩ := LexerRule.match?_literal hlegible name type 0
  rcases contend_cases (p.among names).rules see 0 text.toList with
    ⟨-, hnone⟩ | ⟨r, n, hsome, hlongest⟩
  · have hzero := hnone _ hq rfl m hm
    rw [hlength] at hzero
    exact absurd (String.toList_eq_nil_iff.mp (List.length_eq_zero_iff.mp hzero)) hlegible.1
  · refine ⟨_, hsome, ?_⟩
    obtain ⟨name', type', rfl⟩ := h r hlongest.mem
    have hsame :
        (LexerRule.literal ignoreCase name' type' 0 text).match? see text.toList = some m := hm
    obtain rfl := Option.some.inj (hlongest.found.symm.trans hsame)
    exact hlength

theorem Alike.prefers (h : p.Alike ignoreCase names text) {name : String} {type : TokenType}
    (hhead : (p.among names).rules.head? = some (.literal ignoreCase name type 0 text)) :
    p.Prefers ignoreCase names text name type where
  wins := fun see input w hw hname => by
    have hrule := Option.some.inj ((h.head?_among hw hname).symm.trans hhead)
    exact ⟨by rw [hrule]; rfl, Winner.effect_of_literal hrule⟩
  tokens := fun s htext hlegible => by
    have halone : (p.among names).Alike ignoreCase names text := by
      rwa [Alike, among_among]
    obtain ⟨w, hw, hlength⟩ := h.exists_winner? (List.ne_nil_of_mem (List.mem_of_mem_head? hhead))
      hlegible
    rw [← htext] at hw hlength
    have hname : w.rule.name ∈ names := by
      have hmem := (matches_of_winner? hw).rule
      exact List.contains_iff_mem.mp (List.mem_filter.mp hmem).2
    have hrule := halone.head?_among hw hname
    rw [among_among, hhead] at hrule
    exact tokenize_of_winner? hw hlength
      (Winner.effect_of_literal (Option.some.inj hrule).symm)

end LexerProgram

namespace LexerSpec

variable {l : LexerSpec} {p : LexerProgram} {names : List String} {text : String}

/-- All declared rules of these names are a literal in the mode of the start. -/
def Spell (l : LexerSpec) (names : List String) (text : String) : Prop :=
  ∀ r ∈ l.declared.rules, r.name ∈ names →
    r.mode = defaultMode ∧ r.alternatives = [LexerDecl.literalAlternative text]

theorem rules_among (h : l.Becomes p) (hmode : l.modes.head? = some defaultMode)
    (hspell : l.Spell names text) :
    List.Forall₂ (fun r q => q = .literal l.caseInsensitive r.name r.type 0 text)
      (l.declared.rules.filter fun r => names.contains r.name) (p.among names).rules := by
  have hfiltered : List.Forall₂ (RuleBecomes l)
      (l.declared.rules.filter fun r => names.contains r.name) (p.among names).rules :=
    List.rel_filter (fun r q hr => by simp only [hr.name]) (rules_of_becomes h)
  refine ((List.forall₂_and_left _ _).mpr ⟨fun _ => id, hfiltered⟩).imp fun r q hr => ?_
  obtain ⟨hmem, hbecomes⟩ := hr
  obtain ⟨hin, hname⟩ := List.mem_filter.mp hmem
  obtain ⟨hstart, hliteral⟩ := hspell r hin (List.contains_iff_mem.mp hname)
  obtain ⟨mode, hindex, rfl⟩ := hbecomes.literal text hliteral
  have hzero : l.declared.modeIndex? defaultMode = some 0 := by
    obtain ⟨others, hothers⟩ := List.head?_eq_some_iff.mp hmode
    have hmodes : l.declared.modes = defaultMode :: others := hothers
    rw [LexerDecl.modeIndex?, hmodes, List.findIdx?_cons, if_pos (beq_self_eq_true defaultMode)]
    rfl
  rw [hstart, hzero] at hindex
  rw [Option.some.inj hindex]

/-- Among rules of one literal the first one is preferred. -/
theorem prefers_of_becomes (h : l.Becomes p) (hmode : l.modes.head? = some defaultMode)
    (hspell : l.Spell names text) {r : LexerRuleDecl}
    (hfirst : (l.declared.rules.filter fun r => names.contains r.name).head? = some r) :
    p.Prefers l.caseInsensitive names text r.name r.type := by
  have hrules := rules_among h hmode hspell
  obtain ⟨rest, hrest⟩ := List.head?_eq_some_iff.mp hfirst
  apply LexerProgram.Alike.prefers
  · intro q hq
    obtain ⟨d, -, hd⟩ := exists_of_mem_right hrules hq
    exact ⟨_, _, hd⟩
  · rw [hrest] at hrules
    obtain ⟨q, others, rfl, -, hothers⟩ := List.forall₂_cons_left_iff.mp hrules
    rw [hothers, List.head?_cons]

end LexerSpec

end GrammarEngine
