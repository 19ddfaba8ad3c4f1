import GrammarEngine.Proofs.Bundle.Classification
import GrammarEngine.Proofs.Recognizer.Tiling

/-!
# Names of registered programs

A primary unit is found by the name of its bundle, but what is linked from it is registered under
the name in its header. Nothing compares the two. The compiler gives every header the name of its
unit, so that the names agree in what it makes; a set that is put together from parts can have a
unit that holds the header of another name.
-/
namespace GrammarEngine

/-- The primary unit of the bundle of this name holds this image. -/
def BundleSet.Declares (s : BundleSet) (bundle : String) (image : UnitImage) : Prop :=
  ∃ b u, s.bundle? bundle = some b ∧ s.unit? b.primary = some u ∧
    Image.decode u.payload = .ok image

theorem BundleSet.Declares.unique {s : BundleSet} {bundle : String} {image image' : UnitImage}
    (h : s.Declares bundle image) (h' : s.Declares bundle image') : image = image' := by
  obtain ⟨b, u, hb, hu, hdecode⟩ := h
  obtain ⟨b', u', hb', hu', hdecode'⟩ := h'
  obtain rfl := Option.some.inj (hb.symm.trans hb')
  obtain rfl := Option.some.inj (hu.symm.trans hu')
  exact Except.ok.inj (hdecode.symm.trans hdecode')

/-! ## Registries -/

/-- Programs of one kind of unit. They are linked from the headers of units, whose names they
bear. -/
structure Registry (Header Program : Type) where
  kind : UnitKind
  image : Header → UnitImage
  headerName : Header → String
  links : String → Header → Program → Prop
  programName : Program → String
  programs : List Program
  image_injective : image.Injective
  image_kind : ∀ header, (image header).unitKind? = some kind
  links_name : ∀ bundle header p, links bundle header p → programName p = headerName header

namespace Registry

variable {Header Program : Type} {g : Registry Header Program} {s : BundleSet} {name : String}
  {p : Program} {primary : String × UnitImage} {primaries : List (String × UnitImage)}

def find? (g : Registry Header Program) (name : String) : Option Program :=
  g.programs.find? fun p => g.programName p == name

/-- Every header of a set is linked once, and nothing else is. -/
structure Exact (g : Registry Header Program) (s : BundleSet) : Prop where
  distinct : (g.programs.map g.programName).Nodup
  linked : ∀ bundle header, s.Declares bundle (g.image header) →
    ∃ p ∈ g.programs, g.links bundle header p
  declared : ∀ p ∈ g.programs, ∃ bundle header, s.Declares bundle (g.image header) ∧
    g.links bundle header p

/-- Programs are found by the names in their headers. -/
structure UnderHeaderNames (g : Registry Header Program) (s : BundleSet) : Prop where
  found : ∀ bundle header, s.Declares bundle (g.image header) →
    ∃ p, g.links bundle header p ∧ g.find? (g.headerName header) = some p
  declared : ∀ name p, g.find? name = some p →
    ∃ bundle header, s.Declares bundle (g.image header) ∧ g.headerName header = name ∧
      g.links bundle header p

/-- Programs are found by the names of their units. A name leads to a program exactly if the primary
unit of that name is of this kind, and then to the program of that unit. -/
structure UnderUnitNames (g : Registry Header Program) (s : BundleSet) : Prop where
  registered : ∀ name, (g.find? name).isSome ↔ ∃ header, s.Declares name (g.image header)
  sameUnit : ∀ name p, g.find? name = some p →
    ∃ header, s.Declares name (g.image header) ∧ g.links name header p

/-- Headers bear the names of their units. -/
def NamedAlike (g : Registry Header Program) (s : BundleSet) : Prop :=
  ∀ bundle header, s.Declares bundle (g.image header) → g.headerName header = bundle

theorem programName_of_find? (h : g.find? name = some p) : g.programName p = name := by
  simpa using List.find?_some h

theorem Exact.underHeaderNames (h : g.Exact s) : g.UnderHeaderNames s where
  found bundle header hdeclares := by
    obtain ⟨p, hp, hlinks⟩ := h.linked bundle header hdeclares
    have hfound : g.find? (g.programName p) = some p := find?_key_of_mem h.distinct hp
    rw [g.links_name bundle header p hlinks] at hfound
    exact ⟨p, hlinks, hfound⟩
  declared name p hfound := by
    obtain ⟨bundle, header, hdeclares, hlinks⟩ := h.declared p (List.mem_of_find?_eq_some hfound)
    have hname := g.links_name bundle header p hlinks
    rw [programName_of_find? hfound] at hname
    exact ⟨bundle, header, hdeclares, hname.symm, hlinks⟩

/-- The names of units will do exactly if all headers bear them. -/
theorem UnderHeaderNames.underUnitNames_iff (h : g.UnderHeaderNames s) :
    g.UnderUnitNames s ↔ g.NamedAlike s := by
  constructor
  · intro hunits bundle header hdeclares
    have hsome := (hunits.registered bundle).mpr ⟨header, hdeclares⟩
    obtain ⟨p, hfound⟩ := Option.isSome_iff_exists.mp hsome
    obtain ⟨header', hdeclares', hlinks⟩ := hunits.sameUnit bundle p hfound
    have hheader := g.image_injective (hdeclares.unique hdeclares')
    rw [hheader, ← g.links_name bundle header' p hlinks]
    exact programName_of_find? hfound
  · intro halike
    have hdeclared : ∀ name p, g.find? name = some p →
        ∃ header, s.Declares name (g.image header) ∧ g.links name header p := by
      intro name p hfound
      obtain ⟨bundle, header, hdeclares, rfl, hlinks⟩ := h.declared name p hfound
      rw [halike bundle header hdeclares]
      exact ⟨header, hdeclares, hlinks⟩
    refine ⟨fun name => ⟨fun hsome => ?_, ?_⟩, hdeclared⟩
    · obtain ⟨p, hfound⟩ := Option.isSome_iff_exists.mp hsome
      obtain ⟨header, hdeclares, -⟩ := hdeclared name p hfound
      exact ⟨header, hdeclares⟩
    · rintro ⟨header, hdeclares⟩
      obtain ⟨p, -, hfound⟩ := h.found name header hdeclares
      rw [halike name header hdeclares] at hfound
      exact Option.isSome_iff_exists.mpr ⟨p, hfound⟩

/-! ### Linking in order -/

/-- What a primary unit adds to the programs of a kind. -/
inductive Adds (g : Registry Header Program) :
    String × UnitImage → List Program → List Program → Prop
  | skip {primary : String × UnitImage} {programs : List Program}
      (hkind : primary.2.unitKind? ≠ some g.kind) : Adds g primary programs programs
  | link {bundle : String} {header : Header} {p : Program} {programs : List Program}
      (hlinks : g.links bundle header p)
      (hnew : g.programName p ∉ programs.map g.programName) :
      Adds g (bundle, g.image header) programs (programs ++ [p])

/-- What a pass over primary units makes of the programs of a kind. -/
structure Pass (g : Registry Header Program) (primaries : List (String × UnitImage))
    (programs programs' : List Program) : Prop where
  kept : programs ⊆ programs'
  distinct : (programs.map g.programName).Nodup → (programs'.map g.programName).Nodup
  linked : ∀ bundle header, (bundle, g.image header) ∈ primaries →
    ∃ p ∈ programs', g.links bundle header p
  declared : ∀ p ∈ programs', p ∈ programs ∨
    ∃ bundle header, (bundle, g.image header) ∈ primaries ∧ g.links bundle header p

theorem Pass.cons {programs programs₁ programs' : List Program}
    (hfirst : g.Adds primary programs programs₁) (h : g.Pass primaries programs₁ programs') :
    g.Pass (primary :: primaries) programs programs' := by
  cases hfirst with
  | skip hkind =>
      refine ⟨h.kept, h.distinct, ?_, ?_⟩
      · intro bundle header hmem
        rcases List.mem_cons.mp hmem with rfl | hmem
        · exact absurd (g.image_kind header) hkind
        · exact h.linked bundle header hmem
      · intro p hp
        rcases h.declared p hp with hold | ⟨bundle, header, hmem, hlinks⟩
        · exact .inl hold
        · exact .inr ⟨bundle, header, List.mem_cons_of_mem _ hmem, hlinks⟩
  | @link bundle header p _ hlinks hnew =>
      refine ⟨List.Subset.trans (List.subset_append_left _ _) h.kept, ?_, ?_, ?_⟩
      · intro hdistinct
        apply h.distinct
        rw [List.map_append, List.map_singleton, ← List.concat_eq_append]
        exact hdistinct.concat hnew
      · intro bundle' header' hmem
        rcases List.mem_cons.mp hmem with heq | hmem
        · obtain ⟨rfl, himage⟩ := Prod.mk.inj heq
          obtain rfl := g.image_injective himage
          have hp : p ∈ programs ++ [p] := List.mem_append_right _ (List.mem_singleton_self p)
          exact ⟨p, h.kept hp, hlinks⟩
        · exact h.linked bundle' header' hmem
      · intro q hq
        rcases h.declared q hq with hold | ⟨bundle', header', hmem, hlinks'⟩
        · rcases List.mem_append.mp hold with hold | hself
          · exact .inl hold
          · obtain rfl := List.mem_singleton.mp hself
            exact .inr ⟨bundle, header, List.mem_cons_self, hlinks⟩
        · exact .inr ⟨bundle', header', List.mem_cons_of_mem _ hmem, hlinks'⟩

/-- If every step of a pass adds to the programs of a kind, so does the pass. -/
theorem pass_of_foldlM (g : Registry Header Program) (having : List Program → Recognizer)
    {link : Recognizer → String × UnitImage → Except LoadFault Recognizer}
    (hstep : ∀ programs primary r', link (having programs) primary = .ok r' →
      ∃ programs', g.Adds primary programs programs' ∧ r' = having programs')
    {programs : List Program} {r' : Recognizer}
    (h : primaries.foldlM link (having programs) = .ok r') :
    ∃ programs', g.Pass primaries programs programs' ∧ r' = having programs' := by
  induction primaries generalizing programs with
  | nil =>
      obtain rfl := Except.ok.inj h
      refine ⟨programs, ⟨List.Subset.refl _, id, ?_, fun p hp => .inl hp⟩, rfl⟩
      exact fun _ _ hmem => absurd hmem List.not_mem_nil
  | cons primary rest ih =>
      rw [List.foldlM_cons, bind_eq_ok] at h
      obtain ⟨r₁, hfirst, hrest⟩ := h
      obtain ⟨programs₁, hadds, rfl⟩ := hstep programs primary r₁ hfirst
      obtain ⟨programs', hpass, rfl⟩ := ih hrest
      exact ⟨programs', .cons hadds hpass, rfl⟩

/-- A registry that a pass over all headers of a set has filled. -/
theorem Pass.exact (h : g.Pass primaries [] g.programs)
    (hmem : ∀ bundle image, (bundle, image) ∈ primaries ↔ s.Declares bundle image) :
    g.Exact s where
  distinct := h.distinct List.nodup_nil
  linked bundle header hdeclares := h.linked bundle header ((hmem bundle _).mpr hdeclares)
  declared p hp := by
    rcases h.declared p hp with hnone | ⟨bundle, header, hin, hlinks⟩
    · exact absurd hnone List.not_mem_nil
    · exact ⟨bundle, header, (hmem bundle _).mp hin, hlinks⟩

end Registry

namespace Recognizer

variable {s : BundleSet} {r r' r₀ : Recognizer} {primary : String × UnitImage}
  {primaries : List (String × UnitImage)} {bundle : String} {image : UnitImage}

/-! ## Lexers and parsers -/

/-- The lexers of a recognizer. -/
def lexerRegistry (r : Recognizer) : Registry LexerHeader LexerProgram where
  kind := .lexer
  image := .lexerHeader
  headerName := LexerHeader.name
  links := r.LinksLexer
  programName := LexerProgram.name
  programs := r.lexers
  image_injective _ _ h := UnitImage.lexerHeader.inj h
  image_kind _ := rfl
  links_name := by
    rintro bundle header l ⟨rules, -, hl⟩
    obtain ⟨_, -, hl⟩ := bind_eq_ok.mp hl
    exact Except.ok.inj hl ▸ rfl

/-- The parsers of a recognizer. -/
def parserRegistry (r : Recognizer) : Registry ParserHeader ParserProgram where
  kind := .parser
  image := .parserHeader
  headerName := ParserHeader.name
  links := r.LinksParser
  programName := ParserProgram.name
  programs := r.parsers
  image_injective _ _ h := UnitImage.parserHeader.inj h
  image_kind _ := rfl
  links_name := by
    rintro bundle header p ⟨lexer, rules, -, -, hp⟩
    obtain ⟨_, -, -, hname⟩ := ParserProgram.ofImages_cases hp
    exact hname

theorem lexerRegistry_find? (r : Recognizer) : r.lexerRegistry.find? = r.lexer? := rfl

theorem adds_of_linkPrimary {lexers : List LexerProgram}
    (h : (r.withPrograms lexers []).linkPrimary primary = .ok r') :
    ∃ lexers', r.lexerRegistry.Adds primary lexers lexers' ∧ r' = r.withPrograms lexers' [] := by
  obtain ⟨bundle, image⟩ := primary
  rcases linkPrimary_cases h with ⟨header, l, himage, hlinks, hfree, rfl⟩ | ⟨hkind, rfl⟩
  · obtain rfl : image = .lexerHeader header := himage
    have hadds : r.lexerRegistry.Adds (bundle, .lexerHeader header) lexers (lexers ++ [l]) :=
      .link hlinks (isRegistered_eq_false.mp hfree).1
    exact ⟨lexers ++ [l], hadds, rfl⟩
  · exact ⟨lexers, .skip hkind, rfl⟩

theorem adds_of_linkDeferred {parsers : List ParserProgram}
    (h : (r.withPrograms r.lexers parsers).linkDeferred primary = .ok r') :
    ∃ parsers', r.parserRegistry.Adds primary parsers parsers' ∧
      r' = r.withPrograms r.lexers parsers' := by
  obtain ⟨bundle, image⟩ := primary
  rcases linkDeferred_cases h with ⟨header, p, himage, hlinks, hfree, rfl⟩ | ⟨hkind, rfl⟩
  · obtain rfl : image = .parserHeader header := himage
    have hadds : r.parserRegistry.Adds (bundle, .parserHeader header) parsers (parsers ++ [p]) :=
      .link hlinks (isRegistered_eq_false.mp hfree).2
    exact ⟨parsers ++ [p], hadds, rfl⟩
  · exact ⟨parsers, .skip hkind, rfl⟩

/-! ## Loading -/

theorem resolve_eq_ok {unit referencedBy : String} :
    r.resolve unit referencedBy = .ok image ↔
      ∃ payload, r.unit? unit = some payload ∧ Image.decode payload = .ok image := by
  unfold resolve
  cases r.unit? unit with
  | none => simp
  | some payload => simp [mapError_eq_ok]

/-- Primary images are what the bundles declare. -/
theorem mem_primaries_iff (hs : s.Consistent) (hr : ofUnits s = .ok r)
    (hprimaries : (s.bundles.mapM fun b => do return (b.name, ← r.resolve b.name b.name)) =
      .ok primaries) : (bundle, image) ∈ primaries ↔ s.Declares bundle image := by
  have hstores := stores_of_ofUnits hs hr
  -- names of units are distinct, so that the name of a bundle leads to its primary unit
  have hpayload : ∀ b ∈ s.bundles, ∃ u, s.unit? b.primary = some u ∧
      r.unit? b.name = some u.payload := by
    intro b hb
    obtain ⟨u, hu, hname, -⟩ := hs.sound.primary b hb
    have hunit := hstores.payload u.name
    rw [hs.unitByName?_eq hu, hname] at hunit
    exact ⟨u, hu, hunit⟩
  have hresolved := (mapM_eq_ok.mp hprimaries).imp fun b p hp => bind_eq_ok.mp hp
  constructor
  · intro hmem
    obtain ⟨b, hb, found, hresolve, hp⟩ := exists_of_mem_right hresolved hmem
    obtain ⟨rfl, rfl⟩ := Prod.mk.inj (Except.ok.inj hp)
    obtain ⟨payload, hunit, hdecode⟩ := resolve_eq_ok.mp hresolve
    obtain ⟨u, hu, hfound⟩ := hpayload b hb
    obtain rfl := Option.some.inj (hfound.symm.trans hunit)
    exact ⟨b, u, hs.bundle?_eq hb, hu, hdecode⟩
  · rintro ⟨b, u, hbundle, hu, hdecode⟩
    have hb := List.mem_of_find?_eq_some hbundle
    have hname : b.name = bundle := by simpa using List.find?_some hbundle
    obtain ⟨p, hp, found, hresolve, hpair⟩ := exists_of_mem_right hresolved.flip hb
    obtain rfl := Except.ok.inj hpair
    obtain ⟨payload, hunit, hfound⟩ := resolve_eq_ok.mp hresolve
    obtain ⟨v, hv, hvunit⟩ := hpayload b hb
    obtain rfl := Option.some.inj (hv.symm.trans hu)
    obtain rfl := Option.some.inj (hunit.symm.trans hvunit)
    obtain rfl := Except.ok.inj (hfound.symm.trans hdecode)
    rw [← hname]
    exact hp

/-- A set is loaded in two passes, one for the lexers and one for the parsers. -/
theorem exact_of_load (hs : s.Made) (hload : load s = .ok r) :
    r.lexerRegistry.Exact s ∧ r.parserRegistry.Exact s := by
  have hconsistent := hs.consistent
  obtain ⟨r₀, primaries, r₁, hunits, hprimaries, hfirst, hsecond⟩ := load_cases hload
  have hmem : ∀ bundle image, (bundle, image) ∈ primaries ↔ s.Declares bundle image :=
    fun bundle image => mem_primaries_iff hconsistent hunits hprimaries
  obtain ⟨_, hunits', -, hlexers, hparsers⟩ := exists_ofUnits hconsistent.toPartitioned
  obtain rfl := Except.ok.inj (hunits.symm.trans hunits')
  have hempty : r₀ = r₀.withPrograms [] [] := by
    rw [withPrograms, ← hlexers, ← hparsers]
  rw [hempty] at hfirst
  obtain ⟨lexers, hlexers, rfl⟩ := r₀.lexerRegistry.pass_of_foldlM (r₀.withPrograms · [])
    (fun _ _ _ => adds_of_linkPrimary) hfirst
  -- the second pass finds all lexers, whichever parser it links
  obtain ⟨parsers, hparsers, rfl⟩ :=
    (r₀.withPrograms lexers []).parserRegistry.pass_of_foldlM (r₀.withPrograms lexers ·)
      (fun _ _ _ => adds_of_linkDeferred (r := r₀.withPrograms lexers [])) hsecond
  have hlexerPass : (r₀.withPrograms lexers parsers).lexerRegistry.Pass primaries [] lexers :=
    ⟨hlexers.kept, hlexers.distinct, hlexers.linked, hlexers.declared⟩
  have hparserPass : (r₀.withPrograms lexers parsers).parserRegistry.Pass primaries [] parsers :=
    ⟨hparsers.kept, hparsers.distinct, hparsers.linked, hparsers.declared⟩
  exact ⟨hlexerPass.exact hmem, hparserPass.exact hmem⟩

/-- Whatever set is made and loaded, lexers and parsers are registered under the names in their
headers, all of them and nothing else. These are the names of their units exactly if every header
bears the name of its unit. -/
theorem registered_of_load (hs : s.Made) (hload : load s = .ok r) :
    r.lexerRegistry.UnderHeaderNames s ∧ r.parserRegistry.UnderHeaderNames s ∧
      (r.lexerRegistry.UnderUnitNames s ↔ r.lexerRegistry.NamedAlike s) ∧
      (r.parserRegistry.UnderUnitNames s ↔ r.parserRegistry.NamedAlike s) := by
  obtain ⟨hlexers, hparsers⟩ := exact_of_load hs hload
  have hlexerNames := hlexers.underHeaderNames
  have hparserNames := hparsers.underHeaderNames
  exact ⟨hlexerNames, hparserNames, hlexerNames.underUnitNames_iff,
    hparserNames.underUnitNames_iff⟩

/-- A bundle whose unit holds the header of a lexer of another name. -/
def misnamedSet : BundleSet where
  units := [⟨"A", [0x49, 0x47, 0x55, 1, 0, 1, 0x42, 0, 0, 0, 0, 0], false⟩]
  bundles := [⟨⟨"A", "", .generated⟩, 0, []⟩]

/-- The lexer of unit A is registered as B, and nothing is found by the name of the unit. -/
theorem misnamedSet_registered :
    misnamedSet.Made ∧ ∃ r, load misnamedSet = .ok r ∧
      misnamedSet.Declares "A" (.lexerHeader ⟨"B", "", [], [], [], []⟩) ∧
      (∃ l, r.lexer? "B" = some l) ∧ (r.lexer? "A").isNone = true ∧
      ¬ r.lexerRegistry.UnderUnitNames misnamedSet := by
  have hmade : misnamedSet.Made := by
    have hparts : BundleSet.ofParts misnamedSet.units misnamedSet.bundles = .ok misnamedSet := by
      decide
    exact .ofParts hparts
  have hcheck : (load misnamedSet).map (fun r => (r.lexer? "A").isNone) = .ok true := by
    decide
  obtain ⟨r, hload, hnone⟩ := map_eq_ok.mp hcheck
  have hdeclares : misnamedSet.Declares "A" (.lexerHeader ⟨"B", "", [], [], [], []⟩) := by
    exact ⟨⟨⟨"A", "", .generated⟩, 0, []⟩, _, rfl, rfl, rfl⟩
  obtain ⟨hnames, -, hiff, -⟩ := registered_of_load hmade hload
  obtain ⟨l, -, hfound⟩ := hnames.found "A" _ hdeclares
  rw [lexerRegistry_find?] at hfound
  have hwrong : ¬ r.lexerRegistry.UnderUnitNames misnamedSet := by
    intro hunits
    have hsame : "B" = "A" := hiff.mp hunits "A" _ hdeclares
    exact absurd hsame (by decide)
  exact ⟨hmade, r, hload, hdeclares, ⟨l, hfound⟩, hnone, hwrong⟩

/-! ## Compiled sets -/

/-- The header of a declared unit bears its name. -/
theorem Linkable.named {index : UnitIndex} {name : String} {image : UnitImage}
    (h : r.Linkable index (name, image)) :
    (∀ header, image = .lexerHeader header → header.name = name) ∧
      ∀ header, image = .parserHeader header → header.name = name := by
  obtain ⟨d, -, images, himages, -, hhead⟩ := h
  cases d with
  | lexer d =>
      obtain ⟨rules, rfl, -⟩ := himages
      cases hhead
      constructor
      · rintro header ⟨⟩
        rfl
      · rintro header ⟨⟩
  | parser d =>
      obtain ⟨header, rules, rfl, hname, -⟩ := himages
      cases hhead
      constructor
      · rintro header ⟨⟩
      · rintro header ⟨⟩
        exact hname
  | library d =>
      obtain ⟨header, rfl⟩ := himages
      cases hhead
      constructor
      · rintro header ⟨⟩
      · rintro header ⟨⟩

/-- The compiler of the unit notation gives headers the names of their units, which are then the
names by which lexers and parsers are registered. -/
theorem underUnitNames_of_compile {k : Classifier} {sources : List UnitSource}
    (h : BundleSet.compile Compiler.units k sources = .ok s) (hs : s.Representable)
    (hload : load s = .ok r) :
    r.lexerRegistry.UnderUnitNames s ∧ r.parserRegistry.UnderUnitNames s := by
  have hbuilt := (BundleSet.compile_verified h).1
  obtain ⟨index, r₀, primaries, harranged⟩ := exists_arranged h hs
  have hlinkable : ∀ bundle image, s.Declares bundle image → r₀.Linkable index (bundle, image) := by
    intro bundle image hdeclares
    apply harranged.linkable
    exact (mem_primaries_iff hbuilt.consistent harranged.units harranged.images).mpr hdeclares
  obtain ⟨hlexers, hparsers⟩ := exact_of_load hbuilt.made hload
  constructor
  · apply hlexers.underHeaderNames.underUnitNames_iff.mpr
    intro bundle header hdeclares
    exact (hlinkable bundle _ hdeclares).named.1 header rfl
  · apply hparsers.underHeaderNames.underUnitNames_iff.mpr
    intro bundle header hdeclares
    exact (hlinkable bundle _ hdeclares).named.2 header rfl

end Recognizer

end GrammarEngine
