import GrammarEngine.Proofs.Compile.Order
import GrammarEngine.Proofs.Compile.Programs
import GrammarEngine.Proofs.Parser.Preference
import GrammarEngine.Proofs.Recognizer.Loading
import GrammarEngine.Recognizer.Run

/-!
# Programs of loaded units

Linking adds programs and leaves the arena alone. So every parser of a set that is loaded is taken
over from the images that one of the units was compiled to, and every lexer has the vocabulary that
one of them declares.

The arenas of two sets of the same units differ in where the payloads lie. Linking looks them up by
name only, one primary unit after the other in the order of bundle names, so that the same programs
are linked from both arenas, or both are refused for the same fault. Only the programs are run.
-/
namespace GrammarEngine.Recognizer

variable {r₀ r r' : Recognizer} {index : UnitIndex} {primary : String × UnitImage}

/-! ## What a step can do -/

/-- A lexer is linked from a header and the rules that the header lists. -/
def LinksLexer (r : Recognizer) (bundle : String) (header : LexerHeader) (l : LexerProgram) :
    Prop :=
  ∃ rules, header.ruleUnits.mapM (r.lexerRule bundle) = .ok rules ∧
    LexerProgram.ofImages header rules = .ok l

/-- A parser is linked from a header, the vocabulary of its lexer and the rules that the header
lists. -/
def LinksParser (r : Recognizer) (bundle : String) (header : ParserHeader) (p : ParserProgram) :
    Prop :=
  ∃ lexer rules, r.lexer? header.vocabularyUnit = some lexer ∧
    header.ruleUnits.mapM (r.parserRule bundle) = .ok rules ∧
    ParserProgram.ofImages header lexer.vocabulary rules = .ok p

theorem registerLexer_cases {l : LexerProgram} (h : r.registerLexer l = .ok r') :
    r.isRegistered l.name = false ∧ r' = r.withPrograms (r.lexers ++ [l]) r.parsers := by
  unfold registerLexer at h
  split at h
  · cases h
  · next hfree => exact ⟨Bool.eq_false_of_not_eq_true hfree, (Except.ok.inj h).symm⟩

theorem registerParser_cases {p : ParserProgram} (h : r.registerParser p = .ok r') :
    r.isRegistered p.name = false ∧ r' = r.withPrograms r.lexers (r.parsers ++ [p]) := by
  unfold registerParser at h
  split at h
  · cases h
  · next hfree => exact ⟨Bool.eq_false_of_not_eq_true hfree, (Except.ok.inj h).symm⟩

/-- The first pass registers the lexer of a lexer header, and leaves the others to the second. -/
theorem linkPrimary_cases (h : r.linkPrimary primary = .ok r') :
    (∃ header l, primary.2 = .lexerHeader header ∧ r.LinksLexer primary.1 header l ∧
      r.isRegistered l.name = false ∧ r' = r.withPrograms (r.lexers ++ [l]) r.parsers) ∨
    (primary.2.unitKind? ≠ some .lexer ∧ r' = r) := by
  unfold linkPrimary at h
  split at h
  · next header himage =>
    obtain ⟨rules, hrules, h⟩ := bind_eq_ok.mp h
    obtain ⟨l, hl, h⟩ := bind_eq_ok.mp h
    obtain ⟨hfree, hr'⟩ := registerLexer_cases h
    exact .inl ⟨header, l, himage, ⟨rules, hrules, hl⟩, hfree, hr'⟩
  · next himage => exact .inr ⟨by simp [himage, UnitImage.unitKind?], (Except.ok.inj h).symm⟩
  · next himage => exact .inr ⟨by simp [himage, UnitImage.unitKind?], (Except.ok.inj h).symm⟩
  · cases h

/-- The second pass registers the parser of a parser header. -/
theorem linkDeferred_cases (h : r.linkDeferred primary = .ok r') :
    (∃ header p, primary.2 = .parserHeader header ∧ r.LinksParser primary.1 header p ∧
      r.isRegistered p.name = false ∧ r' = r.withPrograms r.lexers (r.parsers ++ [p])) ∨
    (primary.2.unitKind? ≠ some .parser ∧ r' = r) := by
  unfold linkDeferred at h
  split at h
  · next header himage =>
    unfold linkParser at h
    split at h
    · cases h
    · next lexer hlexer =>
      obtain ⟨rules, hrules, h⟩ := bind_eq_ok.mp h
      obtain ⟨p, hp, h⟩ := bind_eq_ok.mp h
      obtain ⟨hfree, hr'⟩ := registerParser_cases h
      exact .inl ⟨header, p, himage, ⟨lexer, rules, hlexer, hrules, hp⟩, hfree, hr'⟩
  · next hother =>
    have hkind : primary.2.unitKind? ≠ some .parser := by
      cases himage : primary.2 with
      | parserHeader header => exact absurd himage (hother header)
      | lexerHeader _ | lexerRule _ | parserRule _ | library _ => simp [UnitImage.unitKind?]
    exact .inr ⟨hkind, (Except.ok.inj h).symm⟩

/-- Linking a lexer leaves all but the lexers as it was. -/
theorem lexers_of_linkPrimary (h : r.linkPrimary primary = .ok r') :
    ∃ lexers, r' = r.withPrograms lexers r.parsers := by
  rcases linkPrimary_cases h with ⟨_, _, -, -, -, hr'⟩ | ⟨-, hr'⟩
  · exact ⟨_, hr'⟩
  · exact ⟨r.lexers, hr'⟩

/-- Linking a parser leaves all but the parsers as it was. -/
theorem parsers_of_linkDeferred (h : r.linkDeferred primary = .ok r') :
    ∃ parsers, r' = r.withPrograms r.lexers parsers := by
  rcases linkDeferred_cases h with ⟨_, _, -, -, -, hr'⟩ | ⟨-, hr'⟩
  · exact ⟨_, hr'⟩
  · exact ⟨r.parsers, hr'⟩

/-- A set is loaded in four steps: its units are laid into the arena, the primary ones are decoded,
and these are linked in two passes. -/
theorem load_cases {s : BundleSet} (h : load s = .ok r) :
    ∃ r₀ primaries r₁, ofUnits s = .ok r₀ ∧
      (s.bundles.mapM fun b => do return (b.name, ← r₀.resolve b.name b.name)) = .ok primaries ∧
      primaries.foldlM linkPrimary r₀ = .ok r₁ ∧ primaries.foldlM linkDeferred r₁ = .ok r := by
  obtain ⟨r₀, hunits, h⟩ := bind_eq_ok.mp h
  obtain ⟨primaries, hprimaries, h⟩ := bind_eq_ok.mp h
  obtain ⟨r₁, hfirst, hsecond⟩ := bind_eq_ok.mp h
  exact ⟨r₀, primaries, r₁, hunits, hprimaries, hfirst, hsecond⟩

/-! ## What is linked -/

/-- What linking makes of an arena: the units stay, every lexer has the vocabulary of a declared
one, and every parser is taken over from the images of a declared one. -/
structure LinkedFrom (index : UnitIndex) (r₀ r : Recognizer) : Prop where
  arena : r.arena = r₀.arena
  entries : r.entries = r₀.entries
  lexers : ∀ l ∈ r.lexers, ∃ d : LexerDecl, .lexer d ∈ index ∧ l.name = d.name ∧
    l.vocabulary = ⟨d.header.vocabulary⟩
  parsers : ∀ p ∈ r.parsers, ∃ d, .parser d ∈ index ∧ ParserProgram.LoadedFrom index d p

theorem LinkedFrom.resolve (h : LinkedFrom index r₀ r) (unit referencedBy : String) :
    r.resolve unit referencedBy = r₀.resolve unit referencedBy := by
  rw [Recognizer.resolve, Recognizer.resolve, unit?, unit?, entry?, entry?, h.arena, h.entries]

/-- A primary unit is the head of the images of a unit, all of which are in the arena, and lists no
more rules than words can number. -/
structure Supplied (index : UnitIndex) (r₀ : Recognizer) (primary : String × UnitImage) :
    Prop where
  compiled : ∃ d ∈ index, ∃ images, Compiler.compileUnit index d = .ok images ∧
    r₀.Resolves images ∧ images.head? = some primary
  words : ∀ header, primary.2 = .parserHeader header → header.ruleNames.length ≤ 2 ^ 32

/-- What the arena of a set holds under the name of a unit is the head of its images. -/
theorem supplied_of_resolve {s : BundleSet} (hs : s.Representable)
    (hunits : ∀ u ∈ s.units, r₀.unit? u.name = some u.payload) {d : UnitDecl} (hd : d ∈ index)
    {images : NamedImages} (hcompile : Compiler.compileUnit index d = .ok images)
    (hgiven : ∀ i ∈ images, ⟨i.1, Image.encode i.2⟩ ∈ s.artifacts) {image : UnitImage}
    {referencedBy : String} (h : r₀.resolve d.name referencedBy = .ok image) :
    Supplied index r₀ (d.name, image) := by
  obtain ⟨hresolves, hdecoded⟩ := resolves_of_artifacts hs hunits hgiven
  obtain ⟨found, hhead⟩ := (Compiler.unitImages_of_compileUnit hcompile).head
  have hmem := List.mem_of_head? hhead
  obtain rfl := Except.ok.inj (h.symm.trans (hresolves _ hmem referencedBy))
  refine ⟨⟨d, hd, images, hcompile, hresolves, hhead⟩, fun header hheader => ?_⟩
  obtain ⟨u, hu, hdecode⟩ := hdecoded _ hmem
  exact hs.ruleNumbers u hu header (hheader ▸ hdecode)

/-- The header that is linked is the one that a lexer was compiled to. -/
theorem LinkedFrom.linkPrimary (h : LinkedFrom index r₀ r) (hsupplied : Supplied index r₀ primary)
    (hrun : r.linkPrimary primary = .ok r') : LinkedFrom index r₀ r' := by
  obtain ⟨name, image⟩ := primary
  rcases linkPrimary_cases hrun with ⟨header, l, himage, ⟨_, -, hl⟩, -, rfl⟩ | ⟨-, rfl⟩
  · obtain rfl : image = .lexerHeader header := himage
    have hfrom : ∃ d : LexerDecl, .lexer d ∈ index ∧ l.name = d.name ∧
        l.vocabulary = ⟨d.header.vocabulary⟩ := by
      obtain ⟨d, hd, images, hcompile, -, hhead⟩ := hsupplied.compiled
      have himages := Compiler.unitImages_of_compileUnit hcompile
      obtain ⟨_, -, hl⟩ := bind_eq_ok.mp hl
      obtain rfl := Except.ok.inj hl
      cases d with
      | lexer d =>
          obtain ⟨rules, rfl, -⟩ := himages
          cases hhead
          exact ⟨d, hd, rfl, rfl⟩
      | parser d =>
          obtain ⟨_, _, rfl, -⟩ := himages
          cases hhead
      | library d =>
          obtain ⟨_, rfl⟩ := himages
          cases hhead
    exact ⟨h.arena, h.entries, List.forall_mem_append.mpr ⟨h.lexers, by simpa using hfrom⟩,
      h.parsers⟩
  · exact h

/-- The rules that are linked are those whose images the parser was compiled to. -/
theorem LinkedFrom.linkDeferred (h : LinkedFrom index r₀ r) (hsupplied : Supplied index r₀ primary)
    (hrun : r.linkDeferred primary = .ok r') : LinkedFrom index r₀ r' := by
  obtain ⟨⟨d, hd, images, hcompile, hresolves, hhead⟩, hwords⟩ := hsupplied
  obtain ⟨name, image⟩ := primary
  rcases linkDeferred_cases hrun with ⟨header, p, himage, hlinks, -, rfl⟩ | ⟨-, rfl⟩
  · obtain rfl : image = .parserHeader header := himage
    obtain ⟨lexer, rules, -, hrules, hp⟩ := hlinks
    have himages := Compiler.unitImages_of_compileUnit hcompile
    have hfrom : ∃ d, .parser d ∈ index ∧ ParserProgram.LoadedFrom index d p := by
      cases d with
      | lexer d =>
          obtain ⟨_, rfl, _⟩ := himages
          cases hhead
      | library d =>
          obtain ⟨_, rfl⟩ := himages
          cases hhead
      | parser d =>
          obtain ⟨header', images, rfl, -, -, hunits, -⟩ := himages
          cases hhead
          have hfound : header.ruleUnits.mapM (r.parserRule d.name) = .ok images := by
            rw [hunits]
            refine mapM_parserRule fun rule hrule referencedBy => ?_
            rw [h.resolve]
            exact hresolves _ (List.mem_cons_of_mem _ (List.mem_map_of_mem hrule)) referencedBy
          obtain rfl := Except.ok.inj (hrules.symm.trans hfound)
          exact ⟨d, hd, header, _, _, hcompile, hwords header rfl, hp⟩
    exact ⟨h.arena, h.entries, h.lexers,
      List.forall_mem_append.mpr ⟨h.parsers, by simpa using hfrom⟩⟩
  · exact h

/-- What a set is loaded to is linked from the units of its sources. -/
theorem exists_linkedFrom {s : BundleSet} {k : Classifier} {sources : List UnitSource}
    (h : BundleSet.compile Compiler.units k sources = .ok s) (hs : s.Representable)
    (hload : load s = .ok r) :
    ∃ index : UnitIndex,
      List.Forall₂ (fun u d => Compiler.declaration u = .ok d) sources index ∧
      (index.map UnitDecl.name).Nodup ∧ ∃ r₀, LinkedFrom index r₀ r := by
  obtain ⟨hreports, hgroup⟩ := BundleSet.compile_cases h
  obtain ⟨index, hdeclared, hcompiled⟩ := Compiler.compileUnit_cases hreports
  obtain ⟨hpartitioned, hartifacts, hbundles⟩ := BundleSet.group_grouped hgroup
  obtain ⟨r₀, hr₀, hunits, hlexers, hparsers⟩ := exists_ofUnits hpartitioned
  have hnames := Compiler.names_of_declared hdeclared
  refine ⟨index, hdeclared, hnames ▸ hbundles.nodup_iff.mp hpartitioned.bundles_nodup, ?_⟩
  obtain ⟨r₁, primaries, r₂, hr₁, hprimaries, hfirst, hsecond⟩ := load_cases hload
  obtain rfl := Except.ok.inj (hr₀.symm.trans hr₁)
  have hsupplied : ∀ primary ∈ primaries, Supplied index r₀ primary := by
    intro primary hprimary
    obtain ⟨b, hb, hstep⟩ := exists_of_mem_right (mapM_eq_ok.mp hprimaries) hprimary
    obtain ⟨image, hresolve, hstep⟩ := bind_eq_ok.mp hstep
    obtain rfl := Except.ok.inj hstep
    have hmem := hbundles.mem_iff.mp (List.mem_map_of_mem hb)
    rw [← hnames] at hmem
    obtain ⟨d, hd, hname⟩ := List.mem_map.mp hmem
    obtain ⟨images, hcompile, hgiven⟩ := hcompiled d hd
    rw [← hname] at hresolve ⊢
    exact supplied_of_resolve hs hunits hd hcompile
      (fun i hi => hartifacts.mem_iff.mpr (hgiven i hi)) hresolve
  have hstart : LinkedFrom index r₀ r₀ := ⟨rfl, rfl, by simp [hlexers], by simp [hparsers]⟩
  have hmid := foldlM_invariant (LinkedFrom index r₀) hstart
    (fun primary hprimary r r' hlinked => hlinked.linkPrimary (hsupplied primary hprimary)) hfirst
  have hend := foldlM_invariant (LinkedFrom index r₀) hmid
    (fun primary hprimary r r' hlinked => hlinked.linkDeferred (hsupplied primary hprimary)) hsecond
  exact ⟨r₀, hend⟩

/-- Every parser of a loaded set is taken over from the images of a unit of its sources. -/
theorem exists_loadedFrom {s : BundleSet} {k : Classifier} {sources : List UnitSource}
    (h : BundleSet.compile Compiler.units k sources = .ok s) (hs : s.Representable)
    (hload : load s = .ok r) :
    ∃ index : UnitIndex,
      List.Forall₂ (fun u d => Compiler.declaration u = .ok d) sources index ∧
      (index.map UnitDecl.name).Nodup ∧
      ∀ p ∈ r.parsers, ∃ d, .parser d ∈ index ∧ ParserProgram.LoadedFrom index d p := by
  obtain ⟨index, hdeclared, hnodup, r₀, hlinked⟩ := exists_linkedFrom h hs hload
  exact ⟨index, hdeclared, hnodup, hlinked.parsers⟩

end GrammarEngine.Recognizer

/-! ## Recognizers of units in any order -/
namespace GrammarEngine.Recognizer

variable {r r₀ : Recognizer} {s t : BundleSet} {p : ParserProgram} {l : LexerProgram}
  {stream : CharStream} {request : RunRequest}

/-! ### Arenas -/

/-- The same payloads are found by the same names. -/
def SameUnits (r r₀ : Recognizer) : Prop := ∀ name, r.unit? name = r₀.unit? name

theorem Holds.sameUnits {units units₀ : List CompiledUnit} (h : Holds r units)
    (h₀ : Holds r₀ units₀)
    (hunits : (units.map BundleSet.artifactOf).Perm (units₀.map BundleSet.artifactOf)) :
    SameUnits r r₀ := by
  intro name
  by_cases hname : name ∈ units.map CompiledUnit.name
  · obtain ⟨u, hu, rfl⟩ := List.mem_map.mp hname
    obtain ⟨v, hv, heq⟩ := List.mem_map.mp (hunits.mem_iff.mp (List.mem_map_of_mem hu))
    obtain ⟨hvname, hpayload⟩ := Artifact.mk.inj heq
    rw [h.payloads u hu, ← hvname, h₀.payloads v hv, hpayload]
  · have hnames := hunits.map Artifact.name
    rw [List.map_map, List.map_map] at hnames
    have hname₀ : name ∉ units₀.map CompiledUnit.name := fun hmem =>
      hname (hnames.mem_iff.mpr hmem)
    rw [unit?, unit?, h.entry?_eq_none hname, h₀.entry?_eq_none hname₀, Option.map_none,
      Option.map_none]

/-! ### Linking from another arena -/

/-- The programs of one recognizer over the arena of another. -/
def rebase (r₀ r : Recognizer) : Recognizer := r₀.withPrograms r.lexers r.parsers

theorem resolve_rebase (h : SameUnits r r₀) (unit referencedBy : String) :
    (rebase r₀ r).resolve unit referencedBy = r.resolve unit referencedBy := by
  have hunit : (rebase r₀ r).unit? unit = r.unit? unit := (h unit).symm
  rw [resolve, resolve, hunit]

theorem registerLexer_rebase (r₀ r : Recognizer) (l : LexerProgram) :
    (rebase r₀ r).registerLexer l = rebase r₀ <$> r.registerLexer l := by
  have hregistered : (rebase r₀ r).isRegistered l.name = r.isRegistered l.name := rfl
  rw [registerLexer, registerLexer, hregistered]
  split <;> rfl

theorem registerParser_rebase (r₀ r : Recognizer) (p : ParserProgram) :
    (rebase r₀ r).registerParser p = rebase r₀ <$> r.registerParser p := by
  have hregistered : (rebase r₀ r).isRegistered p.name = r.isRegistered p.name := rfl
  rw [registerParser, registerParser, hregistered]
  split <;> rfl

theorem linkLexer_rebase (h : SameUnits r r₀) (bundle : String) (header : LexerHeader) :
    (rebase r₀ r).linkLexer bundle header = rebase r₀ <$> r.linkLexer bundle header := by
  have hrule : (rebase r₀ r).lexerRule bundle = r.lexerRule bundle := by
    funext unit
    rw [lexerRule, lexerRule, resolve_rebase h]
  simp only [linkLexer, hrule, registerLexer_rebase, map_bind]

theorem linkParser_rebase (h : SameUnits r r₀) (bundle : String) (header : ParserHeader) :
    (rebase r₀ r).linkParser bundle header = rebase r₀ <$> r.linkParser bundle header := by
  have hrule : (rebase r₀ r).parserRule bundle = r.parserRule bundle := by
    funext unit
    rw [parserRule, parserRule, resolve_rebase h]
  have hlexer : (rebase r₀ r).lexer? header.vocabularyUnit = r.lexer? header.vocabularyUnit := rfl
  rw [linkParser, linkParser, hlexer]
  split
  · rfl
  · simp only [hrule, registerParser_rebase, map_bind]

/-- A step that does the same over another arena and keeps the units in its own. -/
structure Rebases (r₀ : Recognizer) (f : Recognizer → Except LoadFault Recognizer) : Prop where
  step : ∀ {r}, SameUnits r r₀ → f (rebase r₀ r) = rebase r₀ <$> f r
  keep : ∀ {r r'}, SameUnits r r₀ → f r = .ok r' → SameUnits r' r₀

theorem Rebases.bind {f g : Recognizer → Except LoadFault Recognizer} (hf : Rebases r₀ f)
    (hg : Rebases r₀ g) : Rebases r₀ fun r => f r >>= g where
  step {r} hr := by
    rw [hf.step hr]
    cases hrun : f r with
    | error e => rfl
    | ok r' => exact hg.step (hf.keep hr hrun)
  keep hr hrun := by
    obtain ⟨r', hfirst, hsecond⟩ := bind_eq_ok.mp hrun
    exact hg.keep (hf.keep hr hfirst) hsecond

theorem rebases_foldlM {link : Recognizer → String × UnitImage → Except LoadFault Recognizer}
    (h : ∀ primary, Rebases r₀ fun r => link r primary) (primaries : List (String × UnitImage)) :
    Rebases r₀ fun r => primaries.foldlM link r := by
  induction primaries with
  | nil => exact ⟨fun _ => rfl, fun hr hrun => Except.ok.inj hrun ▸ hr⟩
  | cons primary rest ih =>
      simp only [List.foldlM_cons]
      exact (h primary).bind ih

theorem rebases_linkPrimary (primary : String × UnitImage) :
    Rebases r₀ fun r => r.linkPrimary primary where
  step hr := by
    unfold linkPrimary
    split
    · exact linkLexer_rebase hr primary.1 _
    · rfl
    · rfl
    · rfl
  keep hr hrun := by
    obtain ⟨lexers, rfl⟩ := lexers_of_linkPrimary hrun
    exact hr

theorem rebases_linkDeferred (primary : String × UnitImage) :
    Rebases r₀ fun r => r.linkDeferred primary where
  step hr := by
    unfold linkDeferred
    split
    · exact linkParser_rebase hr primary.1 _
    · rfl
  keep hr hrun := by
    obtain ⟨parsers, rfl⟩ := parsers_of_linkDeferred hrun
    exact hr

/-! ### Loading -/

/-- The images of the primary units of these names. -/
def primaryImages (r : Recognizer) (names : List String) :
    Except LoadFault (List (String × UnitImage)) :=
  names.mapM fun name => do return (name, ← r.resolve name name)

/-- Link all primary units, parsers after everything else. -/
def linkAll (primaries : List (String × UnitImage)) (r : Recognizer) :
    Except LoadFault Recognizer :=
  primaries.foldlM linkPrimary r >>= fun r => primaries.foldlM linkDeferred r

theorem load_eq (h : ofUnits s = .ok r) :
    load s = r.primaryImages (s.bundles.map Bundle.name) >>= fun primaries =>
      linkAll primaries r := by
  rw [load, h, primaryImages, List.mapM_map]
  rfl

theorem rebases_linkAll (primaries : List (String × UnitImage)) : Rebases r₀ (linkAll primaries) :=
  (rebases_foldlM rebases_linkPrimary primaries).bind
    (rebases_foldlM rebases_linkDeferred primaries)

/-- Sets with the same bundle names and the same artifacts are loaded to the same programs, or they
are refused for the same fault. -/
theorem load_rebase (hs : s.Partitioned) (ht : t.Partitioned)
    (hbundles : s.bundles.map Bundle.name = t.bundles.map Bundle.name)
    (hartifacts : s.artifacts.Perm t.artifacts) : ∃ r₀, load t = rebase r₀ <$> load s := by
  obtain ⟨r, units, hr, hholds, hunits, hlexers, hparsers⟩ := exists_holds hs
  obtain ⟨r₀, units₀, hr₀, hholds₀, hunits₀, hlexers₀, hparsers₀⟩ := exists_holds ht
  have hsame : SameUnits r r₀ := hholds.sameUnits hholds₀
    ((hunits.map BundleSet.artifactOf).trans
      (hartifacts.trans (hunits₀.map BundleSet.artifactOf).symm))
  have hstart : r₀ = rebase r₀ r := by
    rw [rebase, hlexers, hparsers, ← hlexers₀, ← hparsers₀]
    rfl
  have himages (names : List String) : r₀.primaryImages names = r.primaryImages names := by
    have hresolve : r₀.resolve = r.resolve := by
      funext unit referencedBy
      rw [resolve, resolve, hsame]
    rw [primaryImages, primaryImages, hresolve]
  refine ⟨r₀, ?_⟩
  rw [load_eq hr, load_eq hr₀, ← hbundles, himages, map_bind]
  refine bind_congr fun primaries => ?_
  rw [← (rebases_linkAll primaries).step hsame, ← hstart]

/-! ### Runs -/

/-- A set is run by its programs alone. -/
theorem run_rebase (r₀ r : Recognizer) (stream : CharStream) (request : RunRequest) :
    (rebase r₀ r).run stream request = r.run stream request := rfl

theorem run_eq_parse (hp : r.selectParser request.parser = .ok p)
    (hl : r.selectLexer request.lexer p = .ok l)
    (hrule : p.ruleNames.contains (request.entryRule.getD p.defaultRule) = true) :
    r.run stream request = p.parse (request.entryRule.getD p.defaultRule)
      (l.tokenize (refold stream request.folding))
      (request.maxDepth.getD ParserProgram.defaultMaxDepth) := by
  simp only [run, hp, hl, hrule, bind, Except.bind, Bool.not_true, Bool.false_eq_true, if_false]

theorem choose_singleton (kind marker name : String) : choose kind marker [name] = .ok name := by
  cases hmarked : name.endsWith marker <;> simp [choose, hmarked]

/-- A single parser is chosen, and is found by its name. -/
theorem selectParser_of_parsers (h : r.parsers = [p]) {name : Option String}
    (hname : name.getD p.name = p.name) : r.selectParser name = .ok p := by
  have hfound : r.parserNamed p.name = .ok p := by simp [parserNamed, parser?, h]
  cases name with
  | none =>
      have hnames : r.parserNames = [p.name] := by simp [parserNames, sortNames, h]
      rw [selectParser, hnames, choose_singleton]
      exact hfound
  | some name =>
      obtain rfl : name = p.name := hname
      exact hfound

theorem selectLexer_of_lexers (h : r.lexers = [l]) {name : Option String}
    (hname : name.getD p.vocabularyUnit = l.name) : r.selectLexer name p = .ok l := by
  simp [selectLexer, lexer?, hname, h]

/-- A run whose rules may nest deep enough gives what plain backtracking gives over the tokens of
the stream. -/
theorem run_of_listedResult? {depth : Nat} {result : ParseResult}
    (hp : r.selectParser request.parser = .ok p) (hl : r.selectLexer request.lexer p = .ok l)
    (linked : p.Linked) (guarded : Parser.Guarded p.bodies)
    (hdepth : p.ruleNames.length * p.precedences.card *
      ((l.tokenize (refold stream request.folding)).visible.length + 1) ≤
        ParserProgram.clampDepth (request.maxDepth.getD ParserProgram.defaultMaxDepth))
    (h : Parser.listedResult? p (request.entryRule.getD p.defaultRule)
      (l.tokenize (refold stream request.folding)) depth = some result) :
    r.run stream request = .ok result := by
  obtain ⟨index, hindex, -⟩ := Option.bind_eq_some_iff.mp h
  have hrule : p.ruleNames.contains (request.entryRule.getD p.defaultRule) = true := by
    rw [List.contains_iff_mem]
    by_contra hmem
    rw [ParserProgram.ruleIndex?_eq_none_iff.mpr hmem] at hindex
    cases hindex
  rw [run_eq_parse hp hl hrule]
  exact Parser.parse_of_listedResult? linked guarded
    (fun _ _ => LexerProgram.index_of_tokenize) hdepth h

/-! ### Orders of units -/

/-- Units can be compiled in any order if they can be in one. The bundles of the two sets, which are
sorted by name, then differ in nothing but the numbers of their units, and the sets are loaded to
recognizers that give the same results, or are refused for the same fault. -/
theorem compile_perm (k : Classifier) {sources sources' : List UnitSource}
    (hperm : sources.Perm sources') :
    ((∃ s, BundleSet.compile Compiler.units k sources = .ok s) ↔
      ∃ t, BundleSet.compile Compiler.units k sources' = .ok t) ∧
    ∀ s t, BundleSet.compile Compiler.units k sources = .ok s →
      BundleSet.compile Compiler.units k sources' = .ok t →
        List.Forall₂ (BundleSet.SameBundle s t) s.bundles t.bundles ∧
        ∀ stream request, (load s).map (fun r => r.run stream request) =
          (load t).map fun r => r.run stream request := by
  refine ⟨⟨?_, ?_⟩, fun s t hs ht => ?_⟩
  · rintro ⟨s, hs⟩
    exact BundleSet.exists_compile_of_perm hperm hs
  · rintro ⟨t, ht⟩
    exact BundleSet.exists_compile_of_perm hperm.symm ht
  · have hregrouped := BundleSet.compile_regrouped hperm hs ht
    refine ⟨hregrouped.sameBundles, fun stream request => ?_⟩
    have hnames := congrArg (List.map UnitSource.name) hregrouped.sources_eq
    rw [List.map_map, List.map_map] at hnames
    obtain ⟨r₀, hload⟩ := load_rebase hregrouped.left.toPartitioned hregrouped.right.toPartitioned
      hnames hregrouped.artifacts
    rw [hload]
    cases load s with
    | error e => rfl
    | ok r => exact congrArg Except.ok (run_rebase r₀ r stream request).symm

/-- A lexer of one letter. -/
def lettersLexer : LexerProgram where
  name := "L"
  grammar := ""
  modes := ["M"]
  channels := ["DEFAULT_TOKEN_CHANNEL", "HIDDEN"]
  vocabulary := ⟨[⟨1, "A", none⟩]⟩
  rules := [⟨"A", 1, 0, false, #[.char 97, .accept 0], #[[]]⟩]

/-- The rule from the library comes behind the rule of the parser. -/
def greetingParser : ParserProgram where
  names := ⟨"P", "L", ["s", "k"], ⟨[⟨1, "A", none⟩]⟩⟩
  grammar := ""
  bodies := #[.plain (.rule 1 0), .plain (.token 1)]
  startRule := 0

def oneLetter : CharStream := ⟨"letter", #['a'], .none⟩

theorem exists_run_greeting : ∃ r result, load greetingSet = .ok r ∧
    r.run oneLetter {} = .ok result ∧ result.stringTree? = some "(s (k a))" := by
  have hloaded : (load greetingSet).map (fun r => (r.lexers, r.parsers)) =
      .ok ([lettersLexer], [greetingParser]) := rfl
  obtain ⟨r, hload, hprograms⟩ := map_eq_ok.mp hloaded
  obtain ⟨hlexers, hparsers⟩ := Prod.mk.inj hprograms
  have hlisted : (Parser.listedResult? greetingParser "s" (lettersLexer.tokenize oneLetter) 8).bind
      ParseResult.stringTree? = some "(s (k a))" := by
    decide +kernel
  obtain ⟨result, hresult, hshown⟩ := Option.bind_eq_some_iff.mp hlisted
  have hparser : r.selectParser none = .ok greetingParser := selectParser_of_parsers hparsers rfl
  have hlexer : r.selectLexer none greetingParser = .ok lettersLexer :=
    selectLexer_of_lexers hlexers rfl
  have hlinked : greetingParser.Linked := ParserProgram.linked_of_isLinked rfl
  have hguarded : Parser.Guarded greetingParser.bodies := Parser.guarded_of_inOrder rfl
  exact ⟨r, result, hload,
    run_of_listedResult? hparser hlexer hlinked hguarded (by decide +kernel) hresult, hshown⟩

/-- The reverse of a list that becomes a set becomes one as well. Both are loaded and run alike, and
both find the tree of a letter. -/
theorem greeting_perm :
    ∃ s t result, BundleSet.compile Compiler.units {} greetingUnits = .ok s ∧
      BundleSet.compile Compiler.units {} greetingUnits.reverse = .ok t ∧
      s.unitNames = ["L", "P", "K", "L$A", "P$s", "P$k"] ∧
      (load s).map (fun r => r.parsers.map ParserProgram.name) = .ok ["P"] ∧
      List.Forall₂ (BundleSet.SameBundle s t) s.bundles t.bundles ∧
      (∀ stream request, (load s).map (fun r => r.run stream request) =
        (load t).map fun r => r.run stream request) ∧
      result.stringTree? = some "(s (k a))" ∧
      (load s).map (fun r => r.run oneLetter {}) = .ok (.ok result) ∧
      (load t).map (fun r => r.run oneLetter {}) = .ok (.ok result) := by
  obtain ⟨hcompiles, halike⟩ := compile_perm {} (List.reverse_perm greetingUnits).symm
  obtain ⟨t, ht⟩ := hcompiles.mp ⟨greetingSet, greeting_compiled⟩
  obtain ⟨hsame, hrun⟩ := halike greetingSet t greeting_compiled ht
  obtain ⟨r, result, hload, hresult, hshown⟩ := exists_run_greeting
  have hparsers : (load greetingSet).map (fun r => r.parsers.map ParserProgram.name) =
      .ok ["P"] := by
    decide +kernel
  have houtcome : (load greetingSet).map (fun r => r.run oneLetter {}) = .ok (.ok result) := by
    rw [hload, Except.map, hresult]
  exact ⟨greetingSet, t, result, greeting_compiled, ht, by decide, hparsers, hsame, hrun, hshown,
    houtcome, (hrun oneLetter {}).symm.trans houtcome⟩

end GrammarEngine.Recognizer
