import GrammarEngine.Proofs.Compile.Units
import GrammarEngine.Proofs.Image.Encoding
import GrammarEngine.Proofs.Recognizer.Arena

/-!
# Compiled sets can be loaded

Every check of the loader follows from what the compiler writes: payloads are images, the units that
a header lists are images of rules of its kind, these refer to nothing in vain, and the vocabulary
lexer of a parser is registered before the parser is linked. Two things are left to the size of the
set: the payloads must be short enough for their lengths to be written, and the rules of a parser
few enough to be numbered by words.
-/
namespace GrammarEngine

inductive UnitKind where
  | lexer
  | parser
  | library
deriving DecidableEq, Repr

def UnitDecl.unitKind : UnitDecl → UnitKind
  | .lexer _ => .lexer
  | .parser _ => .parser
  | .library _ => .library

/-- The kind of unit that a header belongs to. -/
def UnitImage.unitKind? : UnitImage → Option UnitKind
  | .lexerHeader _ => some .lexer
  | .parserHeader _ => some .parser
  | .library _ => some .library
  | .lexerRule _ => none
  | .parserRule _ => none

/-- The kind of unit that a source declares. -/
def UnitSource.unitKind? (u : UnitSource) : Option UnitKind :=
  match UnitDecl.read u.source with
  | .ok d => some d.unitKind
  | .error _ => none

/-- What images can represent: lengths are numbers of sixty-four bits and rules of a parser are
numbered by words. -/
structure BundleSet.Representable (s : BundleSet) : Prop where
  lengths : ∀ u ∈ s.units, u.payload.length < 2 ^ 64
  ruleNumbers : ∀ u ∈ s.units, ∀ header,
    Image.decode u.payload = .ok (.parserHeader header) → header.ruleNames.length ≤ 2 ^ 32

namespace Recognizer

variable {r : Recognizer} {lexers : List LexerProgram} {parsers : List ParserProgram}
  {index : UnitIndex} {images : NamedImages}

/-- The arena with these lexers and parsers. -/
def withPrograms (r : Recognizer) (lexers : List LexerProgram) (parsers : List ParserProgram) :
    Recognizer :=
  { r with lexers, parsers }

/-- Every image is found under its name. -/
def Resolves (r : Recognizer) (images : NamedImages) : Prop :=
  ∀ i ∈ images, ∀ referencedBy, r.resolve i.1 referencedBy = .ok i.2

theorem isRegistered_eq_false {name : String} :
    r.isRegistered name = false ↔
      name ∉ r.lexers.map LexerProgram.name ∧ name ∉ r.parsers.map ParserProgram.name := by
  simp only [isRegistered, lexer?, parser?, Bool.or_eq_false_iff, Option.isSome_eq_false_iff,
    Option.isNone_iff_eq_none, find?_key_eq_none]

/-! ## Linking one unit -/

theorem linkLexer_of_images {d : LexerDecl} (bundle : String) (himages : d.LexerImages images)
    (hresolves : r.Resolves images) (hlexers : d.name ∉ lexers.map LexerProgram.name)
    (hparsers : d.name ∉ parsers.map ParserProgram.name) :
    ∃ l, (r.withPrograms lexers parsers).linkLexer bundle d.header =
        .ok (r.withPrograms (lexers ++ [l]) parsers) ∧ l.name = d.name := by
  obtain ⟨rules, rfl, hunits, hsound⟩ := himages
  obtain ⟨l, hl, hname⟩ := LexerProgram.exists_ofImages hsound
  have hrules : d.header.ruleUnits.mapM ((r.withPrograms lexers parsers).lexerRule bundle) =
      .ok rules := by
    rw [hunits, mapM_eq_ok, List.forall₂_map_left_iff, List.forall₂_same]
    intro rule hrule
    have hmem := List.mem_cons_of_mem (d.name, UnitImage.lexerHeader d.header)
      (List.mem_map_of_mem (f := fun r => (innerName d.name r.name, UnitImage.lexerRule r)) hrule)
    have hfound : (r.withPrograms lexers parsers).resolve (innerName d.name rule.name) bundle =
        .ok (.lexerRule rule) := hresolves _ hmem bundle
    rw [lexerRule, hfound]
    rfl
  have hnew : (r.withPrograms lexers parsers).isRegistered l.name = false :=
    isRegistered_eq_false.mpr ⟨hname ▸ hlexers, hname ▸ hparsers⟩
  refine ⟨l, ?_, hname⟩
  refine bind_eq_ok.mpr ⟨rules, hrules, bind_eq_ok.mpr ⟨l, hl, ?_⟩⟩
  rw [registerLexer, hnew, if_neg Bool.false_ne_true]
  rfl

theorem exists_lexer? {name : String} (h : name ∈ lexers.map LexerProgram.name) :
    ∃ l, (r.withPrograms lexers parsers).lexer? name = some l := by
  obtain ⟨l, hl, hname⟩ := List.mem_map.mp h
  exact Option.isSome_iff_exists.mp (List.find?_isSome.mpr ⟨l, hl, by simpa using hname⟩)

/-- The rules that a header lists are found where their images are. -/
theorem mapM_parserRule {unit bundle : String} {rules : List ParserRuleImage}
    (h : ∀ rule ∈ rules, ∀ referencedBy,
      r.resolve (innerName unit rule.name) referencedBy = .ok (.parserRule rule)) :
    (rules.map fun rule => innerName unit rule.name).mapM (r.parserRule bundle) = .ok rules := by
  rw [mapM_eq_ok, List.forall₂_map_left_iff, List.forall₂_same]
  intro rule hrule
  rw [parserRule, h rule hrule bundle]
  rfl

/-- The images of a parser with its header. -/
theorem linkParser_of_images {d : ParserDecl} (bundle : String) {header : ParserHeader}
    (himages : d.ParserImages index images)
    (hheader : images.head? = some (d.name, .parserHeader header)) (hresolves : r.Resolves images)
    (hvocabulary : header.vocabularyUnit ∈ lexers.map LexerProgram.name)
    (hwords : header.ruleNames.length ≤ 2 ^ 32)
    (hlexers : d.name ∉ lexers.map LexerProgram.name)
    (hparsers : d.name ∉ parsers.map ParserProgram.name) :
    ∃ p, (r.withPrograms lexers parsers).linkParser bundle header =
        .ok (r.withPrograms lexers (parsers ++ [p])) ∧ p.name = d.name := by
  obtain ⟨header', rules, rfl, hname, _, hunits, hbodies⟩ := himages
  cases hheader
  obtain ⟨bodies, hbodies⟩ := hbodies hwords
  obtain ⟨l, hl⟩ : ∃ l, (r.withPrograms lexers parsers).lexer? header.vocabularyUnit = some l :=
    exists_lexer? hvocabulary
  have hrules : header.ruleUnits.mapM ((r.withPrograms lexers parsers).parserRule bundle) =
      .ok rules := by
    rw [hunits]
    refine mapM_parserRule fun rule hrule => ?_
    have hmem := List.mem_cons_of_mem (d.name, UnitImage.parserHeader header)
      (List.mem_map_of_mem (f := fun r => (innerName d.name r.name, UnitImage.parserRule r)) hrule)
    exact hresolves _ hmem
  obtain ⟨p, hp, hpname⟩ : ∃ p, ParserProgram.ofImages header l.vocabulary rules = .ok p ∧
      p.name = header.name := by
    simp only [ParserProgram.ofImages, hbodies]
    exact ⟨_, rfl, rfl⟩
  rw [hname] at hpname
  have hnew : (r.withPrograms lexers parsers).isRegistered p.name = false :=
    isRegistered_eq_false.mpr ⟨hpname ▸ hlexers, hpname ▸ hparsers⟩
  refine ⟨p, ?_, hpname⟩
  simp only [linkParser, hl]
  refine bind_eq_ok.mpr ⟨rules, hrules, bind_eq_ok.mpr ⟨p, hp, ?_⟩⟩
  rw [registerParser, hnew, if_neg Bool.false_ne_true]
  rfl

/-! ## Linking all units -/

/-- A primary unit whose images are all there. -/
def Linkable (r : Recognizer) (index : UnitIndex) (primary : String × UnitImage) : Prop :=
  ∃ d ∈ index, ∃ images, Compiler.UnitImages index d images ∧ r.Resolves images ∧
    images.head? = some primary

theorem Linkable.declared {primary : String × UnitImage} (h : r.Linkable index primary) :
    ∃ d ∈ index, primary.1 = d.name ∧ primary.2.unitKind? = some d.unitKind := by
  obtain ⟨d, hd, images, himages, _, hhead⟩ := h
  cases d with
  | lexer d =>
      obtain ⟨rules, rfl, _⟩ := himages
      cases hhead
      exact ⟨_, hd, rfl, rfl⟩
  | parser d =>
      obtain ⟨header, rules, rfl, _⟩ := himages
      cases hhead
      exact ⟨_, hd, rfl, rfl⟩
  | library d =>
      obtain ⟨header, rfl⟩ := himages
      cases hhead
      exact ⟨_, hd, rfl, rfl⟩

/-- The names of the primary units of a kind. -/
def namesOf (kind : UnitKind) (primaries : List (String × UnitImage)) : List String :=
  (primaries.filter fun p => p.2.unitKind? = some kind).map Prod.fst

theorem linkPrimary_of_linkable {primary : String × UnitImage} (h : r.Linkable index primary)
    (hnew : primary.1 ∉ lexers.map LexerProgram.name) :
    ∃ lexers', (r.withPrograms lexers []).linkPrimary primary = .ok (r.withPrograms lexers' []) ∧
      lexers'.map LexerProgram.name =
        lexers.map LexerProgram.name ++ namesOf .lexer [primary] := by
  obtain ⟨d, hd, images, himages, hresolves, hhead⟩ := h
  cases d with
  | lexer d =>
      have hprimary : primary = (d.name, .lexerHeader d.header) := by
        obtain ⟨rules, rfl, _⟩ := himages
        exact (Option.some.inj hhead).symm
      subst hprimary
      have hnone : d.name ∉ ([] : List ParserProgram).map ParserProgram.name := List.not_mem_nil
      obtain ⟨l, hlink, hname⟩ := linkLexer_of_images d.name himages hresolves hnew hnone
      refine ⟨lexers ++ [l], hlink, ?_⟩
      rw [List.map_append, List.map_singleton, hname]
      rfl
  | parser d =>
      obtain ⟨header, rules, rfl, _⟩ := himages
      cases hhead
      exact ⟨lexers, rfl, (List.append_nil _).symm⟩
  | library d =>
      obtain ⟨header, rfl⟩ := himages
      cases hhead
      exact ⟨lexers, rfl, (List.append_nil _).symm⟩

theorem namesOf_cons (kind : UnitKind) (p : String × UnitImage)
    (primaries : List (String × UnitImage)) :
    namesOf kind (p :: primaries) = namesOf kind [p] ++ namesOf kind primaries := by
  rw [namesOf, ← List.singleton_append, List.filter_append, List.map_append]
  rfl

theorem namesOf_subset (kind : UnitKind) (primaries : List (String × UnitImage)) :
    (namesOf kind primaries).Sublist (primaries.map Prod.fst) :=
  List.filter_sublist.map Prod.fst

theorem foldlM_linkPrimary {primaries : List (String × UnitImage)}
    (h : ∀ p ∈ primaries, r.Linkable index p)
    (hnodup : (lexers.map LexerProgram.name ++ primaries.map Prod.fst).Nodup) :
    ∃ lexers', primaries.foldlM linkPrimary (r.withPrograms lexers []) =
        .ok (r.withPrograms lexers' []) ∧
      lexers'.map LexerProgram.name =
        lexers.map LexerProgram.name ++ namesOf .lexer primaries := by
  induction primaries generalizing lexers with
  | nil => exact ⟨lexers, rfl, (List.append_nil _).symm⟩
  | cons p rest ih =>
      rw [List.map_cons] at hnodup
      have hnew : p.1 ∉ lexers.map LexerProgram.name := fun hmem =>
        (List.nodup_append.mp hnodup).2.2 _ hmem _ List.mem_cons_self rfl
      obtain ⟨lexers₁, hlink, hnames⟩ := linkPrimary_of_linkable (h p List.mem_cons_self) hnew
      have hrest : (lexers₁.map LexerProgram.name ++ rest.map Prod.fst).Nodup := by
        rw [hnames, List.append_assoc]
        exact hnodup.sublist (((namesOf_subset .lexer [p]).append_right _).append_left _)
      obtain ⟨lexers', hrun, hnames'⟩ :=
        ih (fun q hq => h q (List.mem_cons_of_mem p hq)) hrest
      refine ⟨lexers', ?_, ?_⟩
      · rw [List.foldlM_cons, hlink]
        exact hrun
      · rw [hnames', hnames, List.append_assoc, namesOf_cons .lexer p rest]

/-- What the header of a parser asks of the lexers and of its own size. -/
def Linked (lexers : List LexerProgram) (primary : String × UnitImage) : Prop :=
  ∀ header, primary.2 = .parserHeader header →
    header.vocabularyUnit ∈ lexers.map LexerProgram.name ∧ header.ruleNames.length ≤ 2 ^ 32

theorem linkDeferred_of_linkable {primary : String × UnitImage} (h : r.Linkable index primary)
    (hlinked : Linked lexers primary)
    (hnodup : (lexers.map LexerProgram.name ++
      (parsers.map ParserProgram.name ++ namesOf .parser [primary])).Nodup) :
    ∃ parsers', (r.withPrograms lexers parsers).linkDeferred primary =
        .ok (r.withPrograms lexers parsers') ∧
      parsers'.map ParserProgram.name =
        parsers.map ParserProgram.name ++ namesOf .parser [primary] := by
  obtain ⟨d, hd, images, himages, hresolves, hhead⟩ := h
  cases d with
  | lexer d =>
      obtain ⟨rules, rfl, _⟩ := himages
      cases hhead
      exact ⟨parsers, rfl, (List.append_nil _).symm⟩
  | parser d =>
      obtain ⟨header, hprimary⟩ : ∃ header, primary = (d.name, .parserHeader header) := by
        obtain ⟨header, rules, rfl, _⟩ := himages
        exact ⟨header, (Option.some.inj hhead).symm⟩
      subst hprimary
      obtain ⟨hvocabulary, hwords⟩ := hlinked header rfl
      have hnames : namesOf .parser [(d.name, .parserHeader header)] = [d.name] := rfl
      rw [hnames] at hnodup ⊢
      have hlexers : d.name ∉ lexers.map LexerProgram.name := fun hmem =>
        (List.nodup_append.mp hnodup).2.2 _ hmem _
          (List.mem_append_right _ (List.mem_singleton_self _)) rfl
      have hparsers : d.name ∉ parsers.map ParserProgram.name := fun hmem =>
        (List.nodup_append.mp (List.nodup_append.mp hnodup).2.1).2.2 _ hmem _
          (List.mem_singleton_self _) rfl
      obtain ⟨p, hlink, hname⟩ := linkParser_of_images d.name himages hhead hresolves
        hvocabulary hwords hlexers hparsers
      refine ⟨parsers ++ [p], hlink, ?_⟩
      rw [List.map_append, List.map_singleton, hname]
  | library d =>
      obtain ⟨header, rfl⟩ := himages
      cases hhead
      exact ⟨parsers, rfl, (List.append_nil _).symm⟩

theorem foldlM_linkDeferred {primaries : List (String × UnitImage)}
    (h : ∀ p ∈ primaries, r.Linkable index p) (hlinked : ∀ p ∈ primaries, Linked lexers p)
    (hnodup : (lexers.map LexerProgram.name ++
      (parsers.map ParserProgram.name ++ namesOf .parser primaries)).Nodup) :
    ∃ parsers', primaries.foldlM linkDeferred (r.withPrograms lexers parsers) =
        .ok (r.withPrograms lexers parsers') ∧
      parsers'.map ParserProgram.name =
        parsers.map ParserProgram.name ++ namesOf .parser primaries := by
  induction primaries generalizing parsers with
  | nil => exact ⟨parsers, rfl, (List.append_nil _).symm⟩
  | cons p rest ih =>
      rw [namesOf_cons] at hnodup ⊢
      have hfirst : (lexers.map LexerProgram.name ++
          (parsers.map ParserProgram.name ++ namesOf .parser [p])).Nodup :=
        hnodup.sublist (((List.sublist_append_left _ _).append_left _).append_left _)
      obtain ⟨parsers₁, hlink, hnames⟩ := linkDeferred_of_linkable (h p List.mem_cons_self)
        (hlinked p List.mem_cons_self) hfirst
      have hrest : (lexers.map LexerProgram.name ++
          (parsers₁.map ParserProgram.name ++ namesOf .parser rest)).Nodup := by
        rwa [hnames, List.append_assoc]
      obtain ⟨parsers', hrun, hnames'⟩ := ih (fun q hq => h q (List.mem_cons_of_mem p hq))
        (fun q hq => hlinked q (List.mem_cons_of_mem p hq)) hrest
      refine ⟨parsers', ?_, ?_⟩
      · rw [List.foldlM_cons, hlink]
        exact hrun
      · rw [hnames', hnames, List.append_assoc]

/-! ## Loading -/

theorem nodup_namesOf {primaries : List (String × UnitImage)}
    (h : (primaries.map Prod.fst).Nodup) :
    (namesOf .lexer primaries ++ namesOf .parser primaries).Nodup := by
  refine List.nodup_append.mpr ⟨h.sublist (namesOf_subset _ _), h.sublist (namesOf_subset _ _), ?_⟩
  intro name hname name' hname' heq
  subst heq
  obtain ⟨p, hp, rfl⟩ := List.mem_map.mp hname
  obtain ⟨q, hq, heq⟩ := List.mem_map.mp hname'
  obtain ⟨hp, hlexer⟩ := List.mem_filter.mp hp
  obtain ⟨hq, hparser⟩ := List.mem_filter.mp hq
  obtain rfl : q = p := List.inj_on_of_nodup_map h hq hp heq
  simp only [decide_eq_true_eq] at hlexer hparser
  rw [hlexer] at hparser
  cases hparser

/-- The primary units of a kind are the declared units of that kind. -/
theorem mem_namesOf_iff {primaries : List (String × UnitImage)} {kind : UnitKind} {name : String}
    (h : ∀ p ∈ primaries, r.Linkable index p) (hindex : (index.map UnitDecl.name).Nodup)
    (hall : ∀ d ∈ index, d.name ∈ primaries.map Prod.fst) :
    name ∈ namesOf kind primaries ↔ ∃ d ∈ index, d.name = name ∧ d.unitKind = kind := by
  constructor
  · intro hname
    obtain ⟨p, hp, rfl⟩ := List.mem_map.mp hname
    obtain ⟨hp, hkind⟩ := List.mem_filter.mp hp
    obtain ⟨d, hd, hname, hdeclared⟩ := (h p hp).declared
    simp only [decide_eq_true_eq] at hkind
    rw [hkind] at hdeclared
    exact ⟨d, hd, hname.symm, (Option.some.inj hdeclared).symm⟩
  · rintro ⟨d, hd, rfl, hkind⟩
    obtain ⟨p, hp, hname⟩ := List.mem_map.mp (hall d hd)
    obtain ⟨d', hd', hname', hdeclared⟩ := (h p hp).declared
    obtain rfl : d' = d := List.inj_on_of_nodup_map hindex hd' hd (hname'.symm.trans hname)
    refine List.mem_map.mpr ⟨p, List.mem_filter.mpr ⟨hp, ?_⟩, hname⟩
    rw [hdeclared, hkind, decide_eq_true_eq]

theorem Linkable.vocabulary {name : String} {header : ParserHeader}
    (h : r.Linkable index (name, .parserHeader header)) :
    ∃ d ∈ index, d.name = header.vocabularyUnit ∧ d.unitKind = .lexer := by
  obtain ⟨d, hd, images, himages, _, hhead⟩ := h
  cases d with
  | lexer d =>
      obtain ⟨rules, rfl, _⟩ := himages
      cases hhead
  | parser d =>
      obtain ⟨header', rules, rfl, _, ⟨l, hl, hname⟩, _⟩ := himages
      cases hhead
      exact ⟨_, hl, hname, rfl⟩
  | library d =>
      obtain ⟨header', rfl⟩ := himages
      cases hhead

/-- Units that are told apart by their names are linked, every lexer and every parser once. -/
theorem link_of_linkable {primaries : List (String × UnitImage)}
    (h : ∀ p ∈ primaries, r.Linkable index p) (hnodup : (primaries.map Prod.fst).Nodup)
    (hindex : (index.map UnitDecl.name).Nodup)
    (hall : ∀ d ∈ index, d.name ∈ primaries.map Prod.fst)
    (hwords : ∀ p ∈ primaries, ∀ header, p.2 = .parserHeader header →
      header.ruleNames.length ≤ 2 ^ 32)
    (hlexers : r.lexers = []) (hparsers : r.parsers = []) :
    ∃ r', primaries.foldlM linkPrimary r >>= (primaries.foldlM linkDeferred ·) = .ok r' ∧
      r'.lexers.map LexerProgram.name = namesOf .lexer primaries ∧
      r'.parsers.map ParserProgram.name = namesOf .parser primaries := by
  have hr : r = r.withPrograms [] [] := by
    rw [withPrograms, ← hlexers, ← hparsers]
  have hfresh : (([] : List LexerProgram).map LexerProgram.name ++
      primaries.map Prod.fst).Nodup := hnodup
  obtain ⟨lexers, hfirst, hnames⟩ := foldlM_linkPrimary h hfresh
  rw [List.map_nil, List.nil_append] at hnames
  have hlinked : ∀ p ∈ primaries, Linked lexers p := by
    rintro ⟨name, image⟩ hp header rfl
    refine ⟨?_, hwords _ hp header rfl⟩
    rw [hnames, mem_namesOf_iff h hindex hall]
    exact (h _ hp).vocabulary
  have hnodup' : (lexers.map LexerProgram.name ++
      (([] : List ParserProgram).map ParserProgram.name ++ namesOf .parser primaries)).Nodup := by
    rw [hnames]
    exact nodup_namesOf hnodup
  obtain ⟨parsers, hsecond, hnames'⟩ := foldlM_linkDeferred h hlinked hnodup'
  rw [List.map_nil, List.nil_append] at hnames'
  refine ⟨r.withPrograms lexers parsers, ?_, hnames, hnames'⟩
  rw [hr, hfirst]
  exact hsecond

/-- The images of units that are in the arena are decoded from their payloads. -/
theorem resolves_of_artifacts {s : BundleSet} (hs : s.Representable)
    (hunits : ∀ u ∈ s.units, r.unit? u.name = some u.payload)
    (himages : ∀ i ∈ images, ⟨i.1, Image.encode i.2⟩ ∈ s.artifacts) :
    r.Resolves images ∧ ∀ i ∈ images, ∃ u ∈ s.units, Image.decode u.payload = .ok i.2 := by
  have hfound : ∀ i ∈ images, ∃ u ∈ s.units, u.name = i.1 ∧ Image.decode u.payload = .ok i.2 := by
    intro i hi
    obtain ⟨u, hu, heq⟩ := List.mem_map.mp (himages i hi)
    obtain ⟨hname, hpayload⟩ := Artifact.mk.inj heq
    have hlength := hs.lengths u hu
    rw [hpayload] at hlength
    exact ⟨u, hu, hname, hpayload ▸ Image.decode_encode hlength⟩
  constructor
  · intro i hi referencedBy
    obtain ⟨u, hu, hname, hdecode⟩ := hfound i hi
    have hunit := hunits u hu
    rw [hname] at hunit
    simp only [resolve, hunit, hdecode]
    rfl
  · intro i hi
    obtain ⟨u, hu, _, hdecode⟩ := hfound i hi
    exact ⟨u, hu, hdecode⟩

/-- The header of every unit is found in the arena, together with all that it lists. -/
theorem exists_primaries {s : BundleSet} (hs : s.Representable)
    (hunits : ∀ u ∈ s.units, r.unit? u.name = some u.payload)
    (himages : ∀ d ∈ index, ∃ images, Compiler.UnitImages index d images ∧
      ∀ i ∈ images, ⟨i.1, Image.encode i.2⟩ ∈ s.artifacts)
    (hbundles : ∀ b ∈ s.bundles, ∃ d ∈ index, d.name = b.name) :
    ∃ primaries : List (String × UnitImage),
      (s.bundles.mapM fun b => do return (b.name, ← r.resolve b.name b.name)) = .ok primaries ∧
      primaries.map Prod.fst = s.bundles.map Bundle.name ∧
      ∀ p ∈ primaries, r.Linkable index p ∧ ∃ u ∈ s.units, Image.decode u.payload = .ok p.2 := by
  have hheader : ∀ b ∈ s.bundles, ∃ image, r.resolve b.name b.name = .ok image ∧
      r.Linkable index (b.name, image) ∧ ∃ u ∈ s.units, Image.decode u.payload = .ok image := by
    intro b hb
    obtain ⟨d, hd, hname⟩ := hbundles b hb
    obtain ⟨images, hcompiled, hsupplied⟩ := himages d hd
    obtain ⟨hresolves, hdecoded⟩ := resolves_of_artifacts hs hunits hsupplied
    obtain ⟨image, hhead⟩ := hcompiled.head
    rw [hname] at hhead
    have hmem := List.mem_of_head? hhead
    exact ⟨image, hresolves _ hmem b.name, ⟨d, hd, images, hcompiled, hresolves, hhead⟩,
      hdecoded _ hmem⟩
  have hstep : ∀ b ∈ s.bundles, ∃ p : String × UnitImage,
      (do return (b.name, ← r.resolve b.name b.name)) = Except.ok p := by
    intro b hb
    obtain ⟨image, hresolve, _⟩ := hheader b hb
    exact ⟨(b.name, image), bind_eq_ok.mpr ⟨image, hresolve, rfl⟩⟩
  obtain ⟨primaries, hrun⟩ := exists_mapM_eq_ok hstep
  have hresolved := (mapM_eq_ok.mp hrun).imp fun b p hp => bind_eq_ok.mp hp
  refine ⟨primaries, hrun, ?_, fun p hp => ?_⟩
  · refine List.forall₂_eq_eq_eq ▸ ?_
    rw [List.forall₂_map_left_iff, List.forall₂_map_right_iff]
    refine (hresolved.imp fun b p ⟨image, _, hp⟩ => ?_).flip
    exact Except.ok.inj hp ▸ rfl
  · obtain ⟨b, hb, image, hresolve, hp⟩ := exists_of_mem_right hresolved hp
    obtain ⟨image', hresolve', hlinkable, hdecoded⟩ := hheader b hb
    obtain rfl := Except.ok.inj (hresolve.symm.trans hresolve')
    obtain rfl := Except.ok.inj hp
    exact ⟨hlinkable, hdecoded⟩

/-- What the loader makes of a compiled set before it links anything. Every primary unit is the head
of the images of a declared one, and every declared one has a primary unit. -/
structure Arranged (s : BundleSet) (sources : List UnitSource) (index : UnitIndex) (r : Recognizer)
    (primaries : List (String × UnitImage)) : Prop where
  declared : List.Forall₂ (fun u d => Compiler.declaration u = .ok d) sources index
  distinct : (index.map UnitDecl.name).Nodup
  units : ofUnits s = .ok r
  lexers : r.lexers = []
  parsers : r.parsers = []
  images : (s.bundles.mapM fun b => do return (b.name, ← r.resolve b.name b.name)) = .ok primaries
  names : (primaries.map Prod.fst).Nodup
  listed : ∀ d ∈ index, d.name ∈ primaries.map Prod.fst
  linkable : ∀ p ∈ primaries, r.Linkable index p
  words : ∀ p ∈ primaries, ∀ header, p.2 = .parserHeader header → header.ruleNames.length ≤ 2 ^ 32

theorem exists_arranged {s : BundleSet} {k : Classifier} {sources : List UnitSource}
    (h : BundleSet.compile Compiler.units k sources = .ok s) (hs : s.Representable) :
    ∃ index r primaries, Arranged s sources index r primaries := by
  obtain ⟨hreports, hgroup⟩ := BundleSet.compile_cases h
  obtain ⟨index, hdeclared, himages⟩ := Compiler.units_cases hreports
  obtain ⟨hpartitioned, hartifacts, hbundles⟩ := BundleSet.group_grouped hgroup
  obtain ⟨r, hr, hunits, hlexers, hparsers⟩ := exists_ofUnits hpartitioned
  have hnames := Compiler.names_of_declared hdeclared
  have hindex : (index.map UnitDecl.name).Nodup := by
    rw [hnames]
    exact hbundles.nodup_iff.mp hpartitioned.bundles_nodup
  have hdeclares : ∀ b ∈ s.bundles, ∃ d ∈ index, d.name = b.name := by
    intro b hb
    have hmem := hbundles.mem_iff.mp (List.mem_map_of_mem hb)
    rw [← hnames] at hmem
    exact List.mem_map.mp hmem
  have hsupplied : ∀ d ∈ index, ∃ images, Compiler.UnitImages index d images ∧
      ∀ i ∈ images, ⟨i.1, Image.encode i.2⟩ ∈ s.artifacts := by
    intro d hd
    obtain ⟨images, hcompiled, hmem⟩ := himages d hd
    exact ⟨images, hcompiled, fun i hi => hartifacts.mem_iff.mpr (hmem i hi)⟩
  obtain ⟨primaries, hprimaries, hfirst, hlinkable⟩ :=
    exists_primaries hs hunits hsupplied hdeclares
  have hall : ∀ d ∈ index, d.name ∈ primaries.map Prod.fst := by
    intro d hd
    rw [hfirst, hbundles.mem_iff, ← hnames]
    exact List.mem_map_of_mem hd
  have hwords : ∀ p ∈ primaries, ∀ header, p.2 = .parserHeader header →
      header.ruleNames.length ≤ 2 ^ 32 := by
    intro p hp header hheader
    obtain ⟨u, hu, hdecode⟩ := (hlinkable p hp).2
    exact hs.ruleNumbers u hu header (hheader ▸ hdecode)
  have hdistinct : (primaries.map Prod.fst).Nodup := hfirst ▸ hpartitioned.bundles_nodup
  exact ⟨index, r, primaries, hdeclared, hindex, hr, hlexers, hparsers, hprimaries, hdistinct, hall,
    fun p hp => (hlinkable p hp).1, hwords⟩

/-- The names of the sources that declare a unit of a kind. -/
def sourcesOf (kind : UnitKind) (sources : List UnitSource) : List String :=
  (sources.filter fun u => u.unitKind? = some kind).map UnitSource.name

theorem mem_sourcesOf_iff {sources : List UnitSource} {kind : UnitKind} {name : String}
    (h : List.Forall₂ (fun u d => Compiler.declaration u = .ok d) sources index) :
    name ∈ sourcesOf kind sources ↔ ∃ d ∈ index, d.name = name ∧ d.unitKind = kind := by
  induction h with
  | nil => simp [sourcesOf]
  | @cons u d sources index hd _ ih =>
      obtain ⟨hread, hname⟩ := Compiler.declaration_cases hd
      have hkind : u.unitKind? = some d.unitKind := by simp only [UnitSource.unitKind?, hread]
      rw [List.exists_mem_cons_iff, ← ih, sourcesOf, List.filter_cons, hkind, hname]
      by_cases hsame : d.unitKind = kind
      · simp [hsame, sourcesOf, eq_comm]
      · simp [hsame, sourcesOf]

/-- A set that the compiler of the unit notation accepts is loaded, with one lexer for every lexer
unit and one parser for every parser unit. -/
theorem exists_load {s : BundleSet} {k : Classifier} {sources : List UnitSource}
    (h : BundleSet.compile Compiler.units k sources = .ok s) (hs : s.Representable) :
    ∃ r, load s = .ok r ∧
      (r.lexers.map LexerProgram.name).Perm (sourcesOf .lexer sources) ∧
      (r.parsers.map ParserProgram.name).Perm (sourcesOf .parser sources) := by
  obtain ⟨index, r, primaries, harranged⟩ := exists_arranged h hs
  obtain ⟨r', hlinks, hlexers, hparsers⟩ := link_of_linkable harranged.linkable harranged.names
    harranged.distinct harranged.listed harranged.words harranged.lexers harranged.parsers
  have hnodup := nodup_namesOf harranged.names
  have hsources (kind : UnitKind) (hnodup : (namesOf kind primaries).Nodup) :
      (namesOf kind primaries).Perm (sourcesOf kind sources) := by
    have hnames := Compiler.names_of_declared harranged.declared
    have hdistinct : (sourcesOf kind sources).Nodup :=
      (hnames ▸ harranged.distinct).sublist (List.filter_sublist.map UnitSource.name)
    refine (List.perm_ext_iff_of_nodup hnodup hdistinct).mpr fun name => ?_
    rw [mem_namesOf_iff harranged.linkable harranged.distinct harranged.listed,
      mem_sourcesOf_iff harranged.declared]
  refine ⟨r', ?_, ?_, ?_⟩
  · exact bind_eq_ok.mpr ⟨r, harranged.units,
      bind_eq_ok.mpr ⟨primaries, harranged.images, hlinks⟩⟩
  · rw [hlexers]
    exact hsources .lexer (List.nodup_append.mp hnodup).1
  · rw [hparsers]
    exact hsources .parser (List.nodup_append.mp hnodup).2.1

/-- A lexer, and a parser one of whose rules comes from a library. -/
def greetingUnits : List UnitSource :=
  [⟨"L", "(lexer \"L\" (modes \"M\") (token 1 \"A\") (rule \"A\" 1 \"M\" (alt (lit \"a\"))))",
      .generated⟩,
    ⟨"P", "(parser \"P\" (vocab \"L\") (extends \"K\") (rule \"s\" (alt (invoke \"k\"))))",
      .generated⟩,
    ⟨"K", "(library \"K\" (rule \"k\" (alt (tok \"A\"))))", .utility⟩]

/-- Whether a set is found to be representable by decoding its units. -/
def isRepresentable (s : BundleSet) : Bool :=
  s.units.all fun u => decide (u.payload.length < 2 ^ 64) &&
    match Image.decode u.payload with
    | .ok (.parserHeader header) => decide (header.ruleNames.length ≤ 2 ^ 32)
    | _ => true

theorem representable_of_isRepresentable {s : BundleSet} (h : isRepresentable s = true) :
    s.Representable := by
  simp only [isRepresentable, List.all_eq_true, Bool.and_eq_true, decide_eq_true_eq] at h
  refine ⟨fun u hu => (h u hu).1, fun u hu header hdecode => ?_⟩
  have hwords := (h u hu).2
  simpa [hdecode] using hwords

/-- The units as they are compiled. -/
def greetingSet : BundleSet where
  units :=
    [⟨"L", [73, 71, 85, 1, 0, 1, 76, 0, 1, 1, 77, 2, 21, 68, 69, 70, 65, 85, 76, 84, 95, 84, 79,
        75, 69, 78, 95, 67, 72, 65, 78, 78, 69, 76, 6, 72, 73, 68, 68, 69, 78, 1, 2, 1, 65, 0, 1,
        3, 76, 36, 65], false⟩,
      ⟨"P", [73, 71, 85, 1, 2, 1, 80, 0, 1, 76, 2, 1, 115, 1, 107, 2, 3, 80, 36, 115, 3, 80, 36,
        107, 0], false⟩,
      ⟨"K", [73, 71, 85, 1, 4, 1, 75, 0, 1, 1, 107], false⟩,
      ⟨"L$A", [73, 71, 85, 1, 1, 1, 65, 2, 0, 0, 2, 0, 97, 5, 0, 1, 0], true⟩,
      ⟨"P$s", [73, 71, 85, 1, 3, 1, 115, 0, 0, 4, 1, 0], true⟩,
      ⟨"P$k", [73, 71, 85, 1, 3, 1, 107, 1, 0, 1, 2], true⟩]
  bundles :=
    [⟨greetingUnits[2], 2, []⟩, ⟨greetingUnits[0], 0, [3]⟩, ⟨greetingUnits[1], 1, [4, 5]⟩]

theorem greeting_compiled :
    BundleSet.compile Compiler.units ({} : NamingScheme) greetingUnits = .ok greetingSet := by
  decide +kernel

theorem greeting_compiles : ∃ s, BundleSet.compile Compiler.units {} greetingUnits = .ok s ∧
    s.Representable :=
  ⟨greetingSet, greeting_compiled, representable_of_isRepresentable (by decide +kernel)⟩

theorem greeting_loads :
    ∃ s r, BundleSet.compile Compiler.units {} greetingUnits = .ok s ∧ s.Representable ∧
      load s = .ok r ∧ (r.lexers.map LexerProgram.name).Perm (sourcesOf .lexer greetingUnits) ∧
      (r.parsers.map ParserProgram.name).Perm (sourcesOf .parser greetingUnits) := by
  obtain ⟨s, h, hs⟩ := greeting_compiles
  obtain ⟨r, hload, hlexer, hparser⟩ := exists_load h hs
  exact ⟨s, r, h, hs, hload, hlexer, hparser⟩

end Recognizer

end GrammarEngine
