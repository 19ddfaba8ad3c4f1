import GrammarEngine.Proofs.Engine.Restored

/-!
# The lexer of a configured parser

A configuration that names a parser and no lexer leaves the lexer to the metadata. Compiling leaves
it open there too, so the lexer is the one whose tokens the parser reads, through every sequence of
parses. A container may have been stored with a lexer in its metadata; the same holds of it if that
is the lexer of the parser.
-/
namespace GrammarEngine.Engine

/-! ## Sequences of parses -/

/-- The engine after a sequence of parses. -/
def afterAll (e : Engine) (parses : List (CharStream × ParseOptions)) : Engine :=
  parses.foldl (fun e q => e.after q.1 q.2) e

/-- What a parse requests does not depend on the parses before. -/
theorem request_after (e : Engine) (stream : CharStream) (options : ParseOptions) :
    (e.after stream options).request = e.request := by
  unfold after parse
  cases h : e.run stream options with
  | error fault => rfl
  | ok r => exact request_noteResult _ r

theorem recognizer?_after (e : Engine) (stream : CharStream) (options : ParseOptions) :
    (e.after stream options).recognizer? = e.recognizer? := by
  unfold after parse
  cases h : e.run stream options with
  | error fault => rfl
  | ok r => exact recognizer?_noteResult _ r

theorem request_afterAll (e : Engine) (parses : List (CharStream × ParseOptions)) :
    (e.afterAll parses).request = e.request := by
  unfold afterAll
  induction parses generalizing e with
  | nil => rfl
  | cons q rest ih => rw [List.foldl_cons, ih, request_after]

theorem recognizer?_afterAll (e : Engine) (parses : List (CharStream × ParseOptions)) :
    (e.afterAll parses).recognizer? = e.recognizer? := by
  unfold afterAll
  induction parses generalizing e with
  | nil => rfl
  | cons q rest ih => rw [List.foldl_cons, ih, recognizer?_after]

end GrammarEngine.Engine

namespace GrammarEngine.Recognizer

variable {recognizer : Recognizer} {request : RunRequest} {stream : CharStream}
  {p : ParserProgram} {l : LexerProgram} {name : String} {r : ParseResult}

/-! ## Selecting units -/

theorem selectParser_some (h : recognizer.selectParser (some name) = .ok p) :
    recognizer.parser? name = some p := by
  simp only [selectParser, parserNamed] at h
  split at h
  · next found => rw [found, Except.ok.inj h]
  · cases h

theorem name_of_parser? (h : recognizer.parser? name = some p) : p.name = name := by
  simpa using List.find?_some h

theorem name_of_selectLexer {given : Option String} (h : recognizer.selectLexer given p = .ok l) :
    l.name = given.getD p.vocabularyUnit := by
  simp only [selectLexer] at h
  split at h
  · next found =>
    obtain rfl := Except.ok.inj h
    simpa using List.find?_some found
  · cases h

theorem tokens_of_parse {rule : String} {tokens : TokenStream} {maxDepth : Nat}
    (h : p.parse rule tokens maxDepth = .ok r) : r.tokens = tokens.tokens.toArray := by
  unfold ParserProgram.parse at h
  split at h
  · cases h
  · simp only at h
    split at h
    · cases h
    · obtain rfl := Except.ok.inj h
      rfl
    · obtain rfl := Except.ok.inj h
      rfl

/-- The tokens of a result are those of the selected lexer. -/
theorem tokens_of_run (hp : recognizer.selectParser request.parser = .ok p)
    (hl : recognizer.selectLexer request.lexer p = .ok l)
    (h : recognizer.run stream request = .ok r) :
    r.tokens = (l.tokenize (refold stream request.folding)).tokens.toArray := by
  unfold run at h
  obtain ⟨p', hp', h⟩ := bind_eq_ok.mp h
  obtain rfl := Except.ok.inj (hp.symm.trans hp')
  obtain ⟨l', hl', h⟩ := bind_eq_ok.mp h
  obtain rfl := Except.ok.inj (hl.symm.trans hl')
  simp only at h
  split at h
  · cases h
  · exact tokens_of_parse h

end GrammarEngine.Recognizer

namespace GrammarEngine.Engine

open Container (letterLexer letterParser)

variable {e : Engine} {b : LoadedBundle} {p : ParserProgram} {l : LexerProgram} {name : String}
  {options : ParseOptions}

/-! ## The lexer of a configured parser -/

/-- Compiling with a parser that is asked for leaves the lexer open. -/
theorem lexer_of_compiled (h : ∃ d : Engine, d.compile = .ok e) (hloaded : e.loaded = some b)
    (hparser : e.config.parser = some name) (hlexer : e.config.lexer = none) :
    b.metadata.lexer = none := by
  obtain ⟨d, hd⟩ := h
  obtain ⟨files, g, artifacts, recognizer, -, -, -, -, rfl⟩ := compile_eq_ok hd
  obtain rfl := Option.some.inj hloaded
  have hconfig : d.config.parser = some name := hparser
  have hopen : d.config.lexer = none := hlexer
  simp [compiledMetadata, hconfig, hopen]

/-- If the configuration names a parser and no lexer, every parse that selects its units uses the
named parser and the lexer that this parser was compiled against, whatever was parsed before. The
engine has been compiled, or the metadata of its container name no lexer but that of the parser. -/
theorem tokens_of_configured (hloaded : e.loaded = some b)
    (hparser : e.config.parser = some name) (hlexer : e.config.lexer = none)
    (horigin : (∃ d : Engine, d.compile = .ok e) ∨ b.metadata.lexer = none ∨
      b.metadata.lexer = some p.vocabularyUnit)
    (hp : b.recognizer.selectParser (e.request options).parser = .ok p)
    (hl : b.recognizer.selectLexer (e.request options).lexer p = .ok l) :
    p.name = name ∧ l.name = p.vocabularyUnit ∧
      ∀ parses stream r, (e.afterAll parses).run stream options = .ok r →
        r.tokens =
          (l.tokenize (Recognizer.refold stream (e.request options).folding)).tokens.toArray := by
  have hstored : b.metadata.lexer = none ∨ b.metadata.lexer = some p.vocabularyUnit := by
    rcases horigin with hcompiled | hstored
    · exact .inl (lexer_of_compiled hcompiled hloaded hparser hlexer)
    · exact hstored
  have hrequest : (e.request options).lexer = b.metadata.lexer := by
    simp [request, hlexer, metadata?, hloaded]
  refine ⟨?_, ?_, ?_⟩
  · have hnamed : (e.request options).parser = some name := by
      simp [request, hparser]
    rw [hnamed] at hp
    exact Recognizer.name_of_parser? (Recognizer.selectParser_some hp)
  · rw [Recognizer.name_of_selectLexer hl, hrequest]
    rcases hstored with hnone | hown
    · rw [hnone, Option.getD_none]
    · rw [hown, Option.getD_some]
  · intro parses stream r hrun
    have hsame : (e.afterAll parses).recognizer? = some b.recognizer := by
      rw [recognizer?_afterAll, recognizer?, hloaded, Option.map_some]
    rw [run_eq, hsame, request_afterAll] at hrun
    exact Recognizer.tokens_of_run hp hl (mapError_eq_ok.mp hrun)

def digitLexer : UnitSource :=
  ⟨"M", "(lexer \"M\" (modes \"D\") (token 1 \"B\") (rule \"B\" 1 \"D\" (alt (lit \"0\"))))",
    .generated⟩

def digitParser : UnitSource :=
  ⟨"Q", "(parser \"Q\" (vocab \"M\") (start \"t\") (rule \"t\" (alt (tok \"B\"))))", .generated⟩

/-- A generator that makes a letter and a digit language, of which the letters are the default and
the digits are asked for. -/
def digitEngine : Engine where
  grammar := some []
  config := { parser := some "Q" }
  generator := fun _ _ =>
    .ok ⟨"G", [letterLexer, digitLexer, letterParser, digitParser], some "L", some "P", []⟩

/-- Whether an engine selects units for a parse without options once it is compiled. -/
def selectsUnits (e : Engine) : Bool :=
  match e.compile with
  | .error _ => false
  | .ok e => match e.loaded with
    | none => false
    | some b => match b.recognizer.selectParser (e.request {}).parser with
      | .error _ => false
      | .ok p => (b.recognizer.selectLexer (e.request {}).lexer p).isOk

theorem digitEngine_tokens :
    ∃ e b p l, digitEngine.compile = .ok e ∧ e.loaded = some b ∧
      e.config.parser = some "Q" ∧ e.config.lexer = none ∧
      b.recognizer.selectParser (e.request {}).parser = .ok p ∧
      b.recognizer.selectLexer (e.request {}).lexer p = .ok l ∧
      p.name = "Q" ∧ l.name = p.vocabularyUnit ∧
      ∀ parses stream r, (e.afterAll parses).run stream {} = .ok r →
        r.tokens =
          (l.tokenize (Recognizer.refold stream (e.request {}).folding)).tokens.toArray := by
  have hselects : selectsUnits digitEngine = true := by
    decide +kernel
  unfold selectsUnits at hselects
  cases hcompile : digitEngine.compile with
  | error fault => simp [hcompile] at hselects
  | ok e =>
      obtain ⟨_, _, _, _, _, _, _, _, rfl⟩ := compile_eq_ok hcompile
      simp only [hcompile] at hselects
      split at hselects
      · cases hselects
      · next b hloaded =>
        split at hselects
        · cases hselects
        · next p hp =>
          cases hl : b.recognizer.selectLexer _ p with
          | error fault =>
              rw [hl] at hselects
              cases hselects
          | ok l =>
              exact ⟨_, b, p, l, rfl, hloaded, rfl, rfl, hp, hl,
                tokens_of_configured hloaded rfl rfl (.inl ⟨_, hcompile⟩) hp hl⟩

end GrammarEngine.Engine
