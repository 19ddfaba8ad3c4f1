import GrammarEngine.Archive.EntryName
import GrammarEngine.Proofs.Checked
import Mathlib.Data.List.Infix

/-!
# Clean names

A name has a clean form exactly if it does not start at the root and the components that are kept
of it may stand in a clean name. The clean form joins them, is its own clean form, and lies directly
in a directory exactly if one component follows that of the directory. So no name leads out of the
archive, and what is accepted below a directory is one clean component.
-/
namespace GrammarEngine.EntryName

variable {part cs : List Char} {ps : List (List Char)} {dir file : List Char} {raw name : String}
  {allowHidden : Bool}

/-- A component that stays as it is: not empty, without slashes and backslashes, and not hidden. -/
structure CleanPart (part : List Char) : Prop where
  ne_nil : part ≠ []
  slash : '/' ∉ part
  backslash : '\\' ∉ part
  visible : part.head? ≠ some '.'

/-- A component of a clean name. It is hidden only if hidden names are allowed. -/
structure Component (allowHidden : Bool) (part : List Char) : Prop where
  ne_nil : part ≠ []
  slash : '/' ∉ part
  backslash : '\\' ∉ part
  ne_dot : part ≠ ['.']
  ne_parent : part ≠ parentPart
  visible : allowHidden = false → part.head? ≠ some '.'

theorem CleanPart.component (h : CleanPart part) (allowHidden : Bool) :
    Component allowHidden part where
  ne_nil := h.ne_nil
  slash := h.slash
  backslash := h.backslash
  ne_dot := by
    rintro rfl
    exact h.visible rfl
  ne_parent := by
    rintro rfl
    exact h.visible rfl
  visible _ := h.visible

theorem Component.cleanPart (h : Component false part) : CleanPart part :=
  ⟨h.ne_nil, h.slash, h.backslash, h.visible rfl⟩

/-! ## Parts -/

theorem parts_of_not_mem (h : '/' ∉ part) : parts part = [part] := by
  induction part with
  | nil => rfl
  | cons c rest ih =>
      obtain ⟨hc, hrest⟩ := not_or.mp (fun hmem => h (List.mem_cons.mpr hmem))
      have hslash : (c == '/') = false := by simpa using Ne.symm hc
      simp [parts, hslash, ih hrest]

theorem parts_append (cs ds : List Char) : parts (cs ++ '/' :: ds) = parts cs ++ parts ds := by
  induction cs with
  | nil => simp [parts]
  | cons c rest ih =>
      obtain ⟨first, others, hparts⟩ := List.exists_cons_of_ne_nil (parts_ne_nil rest)
      rw [List.cons_append, parts, parts, ih, hparts]
      split <;> rfl

theorem join_cons_cons (p q : List Char) (rest : List (List Char)) :
    join (p :: q :: rest) = p ++ '/' :: join (q :: rest) := rfl

theorem join_parts (cs : List Char) : join (parts cs) = cs := by
  induction cs with
  | nil => rfl
  | cons c rest ih =>
      obtain ⟨first, others, hparts⟩ := List.exists_cons_of_ne_nil (parts_ne_nil rest)
      rw [hparts] at ih
      rw [parts, hparts]
      split
      · next hc => rw [join_cons_cons, ih, beq_iff_eq.mp hc, List.nil_append]
      · cases others <;> rw [← ih] <;> rfl

theorem parts_join (hne : ps ≠ []) (h : ∀ p ∈ ps, '/' ∉ p) : parts (join ps) = ps := by
  induction ps with
  | nil => exact absurd rfl hne
  | cons p rest ih =>
      obtain ⟨hp, hrest⟩ := List.forall_mem_cons.mp h
      cases rest with
      | nil => exact parts_of_not_mem hp
      | cons q rest =>
          rw [join_cons_cons, parts_append, parts_of_not_mem hp,
            ih (List.cons_ne_nil q rest) hrest, List.singleton_append]

theorem join_eq_intercalate (ps : List (List Char)) : join ps = ['/'].intercalate ps := by
  induction ps with
  | nil => rfl
  | cons p rest ih =>
      cases rest with
      | nil => simp [join]
      | cons q rest =>
          rw [join_cons_cons, ih]
          simp [List.intercalate]

theorem mem_join {c : Char} (h : c ∈ join ps) : c = '/' ∨ ∃ p ∈ ps, c ∈ p := by
  induction ps with
  | nil => exact absurd h List.not_mem_nil
  | cons p rest ih =>
      cases rest with
      | nil => exact .inr ⟨p, List.mem_cons_self, h⟩
      | cons q rest =>
          simp only [join, List.mem_append, List.mem_cons] at h
          rcases h with h | rfl | h
          · exact .inr ⟨p, List.mem_cons_self, h⟩
          · exact .inl rfl
          · rcases ih h with hslash | ⟨r, hr, hc⟩
            · exact .inl hslash
            · exact .inr ⟨r, List.mem_cons_of_mem p hr, hc⟩

/-- Only parts that are not kept are left out, and these are no more than a dot. -/
theorem mem_of_mem_part {c : Char} (hc : c ∈ cs) (hslash : c ≠ '/') (hdot : c ≠ '.') :
    ∃ p ∈ kept (parts cs), c ∈ p := by
  rw [← join_parts cs] at hc
  obtain rfl | ⟨p, hp, hcp⟩ := mem_join hc
  · exact absurd rfl hslash
  · refine ⟨p, List.mem_filter.mpr ⟨hp, ?_⟩, hcp⟩
    simp only [Bool.and_eq_true, bne_iff_ne, ne_eq]
    refine ⟨List.ne_nil_of_mem hcp, ?_⟩
    rintro rfl
    exact hdot (List.mem_singleton.mp hcp)

theorem mem_of_mem_parts {c : Char} (hpart : part ∈ parts cs) (hc : c ∈ part) : c ∈ cs := by
  induction cs generalizing part with
  | nil =>
      obtain rfl := List.mem_singleton.mp hpart
      exact absurd hc List.not_mem_nil
  | cons d rest ih =>
      unfold parts at hpart
      split at hpart
      · rcases List.mem_cons.mp hpart with rfl | hpart
        · exact absurd hc List.not_mem_nil
        · exact List.mem_cons_of_mem d (ih hpart hc)
      · split at hpart
        · next hnone => exact absurd hnone (parts_ne_nil rest)
        · next first others hparts =>
          rcases List.mem_cons.mp hpart with rfl | hpart
          · rcases List.mem_cons.mp hc with rfl | hc
            · exact List.mem_cons_self
            · exact List.mem_cons_of_mem d (ih (hparts ▸ List.mem_cons_self) hc)
          · exact List.mem_cons_of_mem d (ih (hparts ▸ List.mem_cons_of_mem first hpart) hc)

/-! ## Names -/

theorem kept_of_components (h : ∀ p ∈ ps, Component allowHidden p) : kept ps = ps := by
  apply List.filter_eq_self.mpr
  intro p hp
  simp [(h p hp).ne_nil, (h p hp).ne_dot]

theorem check_eq_ok_iff : check raw allowHidden ps = .ok () ↔
    ∀ p ∈ ps, p ≠ parentPart ∧ (allowHidden = false → p.head? ≠ some '.') := by
  induction ps with
  | nil => simp [check]
  | cons p rest ih =>
      rw [check, List.forall_mem_cons, ← ih]
      by_cases hparent : p = parentPart
      · simp [hparent]
      · by_cases hhidden : allowHidden = false ∧ p.head? = some '.'
        · simp [hparent, hhidden]
        · have hcheck : ¬(!allowHidden && p.head? == some '.') = true := by simpa using hhidden
          simp only [beq_iff_eq, hparent, if_false, hcheck, ne_eq, not_false_eq_true, true_and]
          exact (and_iff_right fun hallow hhead => hhidden ⟨hallow, hhead⟩).symm

/-- What is kept of a name without backslashes is checked for what else a component may not be. -/
theorem components_iff (hbackslash : '\\' ∉ cs) :
    (∀ p ∈ kept (parts cs), Component allowHidden p) ↔
      check raw allowHidden (kept (parts cs)) = .ok () := by
  rw [check_eq_ok_iff]
  constructor
  · intro h p hp
    exact ⟨(h p hp).ne_parent, (h p hp).visible⟩
  · intro h p hp
    obtain ⟨hpart, hkept⟩ := List.mem_filter.mp hp
    simp only [Bool.and_eq_true, bne_iff_ne] at hkept
    exact ⟨hkept.1, not_mem_parts_slash cs p hpart,
      fun hc => hbackslash (mem_of_mem_parts hpart hc), hkept.2, (h p hp).1, (h p hp).2⟩

/-- A name is refused at its start or for its components; nothing else is looked at. -/
theorem clean_eq_ok_iff : clean raw allowHidden = .ok name ↔
    raw.toList.head? ≠ some '/' ∧ kept (parts raw.toList) ≠ [] ∧
      (∀ p ∈ kept (parts raw.toList), Component allowHidden p) ∧
        name = String.ofList (join (kept (parts raw.toList))) := by
  simp only [clean, ite_throw_bind_eq_ok, bind_eq_ok]
  constructor
  · rintro ⟨_, hbackslash, hslash, _, hcheck, hne, h⟩
    refine ⟨by simpa using hslash, by simpa using hne, ?_, (Except.ok.inj h).symm⟩
    exact (components_iff (by simpa using hbackslash)).mpr hcheck
  · rintro ⟨hslash, hne, hcomponents, rfl⟩
    have hempty : raw.toList ≠ [] := by
      intro hnil
      rw [hnil] at hne
      exact hne rfl
    have hbackslash : '\\' ∉ raw.toList := by
      intro hmem
      obtain ⟨p, hp, hc⟩ := mem_of_mem_part hmem (by decide) (by decide)
      exact (hcomponents p hp).backslash hc
    exact ⟨by simpa using hempty, by simpa using hbackslash, by simpa using hslash, (),
      (components_iff hbackslash).mp hcomponents, by simpa using hne, rfl⟩

/-- Components joined are a clean name. -/
theorem clean_join (hne : ps ≠ []) (h : ∀ p ∈ ps, Component allowHidden p) :
    clean (String.ofList (join ps)) allowHidden = .ok (String.ofList (join ps)) := by
  have hparts : kept (parts (join ps)) = ps := by
    rw [parts_join hne fun p hp => (h p hp).slash, kept_of_components h]
  rw [clean_eq_ok_iff, String.toList_ofList, hparts]
  refine ⟨fun hhead => ?_, hne, h, rfl⟩
  obtain ⟨p, rest, rfl⟩ := List.exists_cons_of_ne_nil hne
  obtain ⟨c, cs, rfl⟩ := List.exists_cons_of_ne_nil (h p List.mem_cons_self).ne_nil
  have hfirst : (join ((c :: cs) :: rest)).head? = some c := by cases rest <;> rfl
  rw [hfirst] at hhead
  exact (h _ List.mem_cons_self).slash (Option.some.inj hhead ▸ List.mem_cons_self)

/-! ## Names in a directory -/

theorem below?_eq_some_iff {cs : List Char} :
    below? dir cs = some file ↔ cs = dir ++ '/' :: file := by
  constructor
  · intro h
    unfold below? at h
    split at h
    · next hprefix =>
      obtain rfl := Option.some.inj h
      exact (List.isPrefixOf?_eq_some_iff_append_eq.mp hprefix).symm
    · cases h
  · rintro rfl
    simp only [below?, List.isPrefixOf?_eq_some_iff_append_eq.mpr rfl]

/-- Behind the name of a directory there is exactly one component. -/
theorem sanitizeIn_eq_ok_iff {dir : String} : sanitizeIn raw dir = .ok name ↔
    sanitize raw = .ok name ∧
      ∃ file, Component false file ∧ name.toList = dir.toList ++ '/' :: file := by
  unfold sanitizeIn
  rw [bind_eq_ok]
  constructor
  · rintro ⟨name', hclean, h⟩
    split at h
    · next file hbelow =>
      obtain ⟨hfile, h⟩ := ite_throw_eq_ok.mp h
      obtain rfl := Except.ok.inj h
      simp only [Bool.or_eq_true, List.isEmpty_iff, List.contains_iff_mem, not_or] at hfile
      have hname := below?_eq_some_iff.mp hbelow
      refine ⟨hclean, file, ?_, hname⟩
      obtain ⟨-, hne, hcomponents, rfl⟩ := clean_eq_ok_iff.mp hclean
      apply hcomponents
      have hlast : file ∈ parts (join (kept (parts raw.toList))) := by
        rw [← String.toList_ofList (l := join _), hname, parts_append, parts_of_not_mem hfile.2]
        exact List.mem_append_right _ List.mem_cons_self
      rwa [parts_join hne fun p hp => (hcomponents p hp).slash] at hlast
    · cases h
  · rintro ⟨hclean, file, hfile, hname⟩
    refine ⟨name, hclean, ?_⟩
    simp only [below?_eq_some_iff.mpr hname]
    exact ite_throw_eq_ok.mpr ⟨by simp [hfile.ne_nil, hfile.slash], rfl⟩

/-- A clean component below a directory of one clean component. -/
theorem sanitizeIn_of_clean (hdir : CleanPart dir) (hfile : CleanPart file) :
    sanitizeIn (String.ofList (dir ++ '/' :: file)) (String.ofList dir) =
      .ok (String.ofList (dir ++ '/' :: file)) := by
  have hclean : sanitize (String.ofList (dir ++ '/' :: file)) =
      .ok (String.ofList (dir ++ '/' :: file)) :=
    @clean_join [dir, file] false (List.cons_ne_nil _ _) (by
      simp [hdir.component, hfile.component])
  exact sanitizeIn_eq_ok_iff.mpr ⟨hclean, file, hfile.component false, by simp⟩

/-- A name is accepted below a directory only if two of its parts are kept, the directory and a
clean component. -/
theorem sanitizeIn_cases {dir : String} (hdir : '/' ∉ dir.toList)
    (h : sanitizeIn raw dir = .ok name) :
    ∃ file, CleanPart file ∧ kept (parts raw.toList) = [dir.toList, file] ∧
      name = String.ofList (dir.toList ++ '/' :: file) := by
  obtain ⟨hclean, file, hfile, hname⟩ := sanitizeIn_eq_ok_iff.mp h
  obtain ⟨-, hne, hcomponents, rfl⟩ := clean_eq_ok_iff.mp hclean
  rw [String.toList_ofList] at hname
  refine ⟨file, hfile.cleanPart, ?_, by rw [hname]⟩
  rw [← parts_join hne fun p hp => (hcomponents p hp).slash, hname, parts_append,
    parts_of_not_mem hdir, parts_of_not_mem hfile.slash]
  rfl

/-! ## Clean forms -/

/-- The clean form of a name: cut at its slashes, the name does not start at the root, and what is
left without empty parts and dots are components, one at least, which the clean form joins. -/
def IsCleanForm (allowHidden : Bool) (raw name : List Char) : Prop :=
  ∃ written : List (List Char), (∀ p ∈ written, '/' ∉ p) ∧ raw = ['/'].intercalate written ∧
    written.head? ≠ some [] ∧
      let components := written.filter fun p => p ≠ [] ∧ p ≠ ['.']
      components ≠ [] ∧ (∀ p ∈ components, Component allowHidden p) ∧
        name = ['/'].intercalate components

theorem head?_parts (cs : List Char) :
    (parts cs).head? = some [] ↔ cs = [] ∨ cs.head? = some '/' := by
  cases cs with
  | nil => simp [parts]
  | cons c rest =>
      obtain ⟨first, others, hparts⟩ := List.exists_cons_of_ne_nil (parts_ne_nil rest)
      rw [parts, hparts]
      by_cases hc : c = '/' <;> simp [hc]

theorem clean_eq_ok_iff_isCleanForm : clean raw allowHidden = .ok name ↔
    IsCleanForm allowHidden raw.toList name.toList := by
  have hfilter : ∀ ps, kept ps = ps.filter fun p => p ≠ [] ∧ p ≠ ['.'] := fun ps =>
    List.filter_congr fun p _ => by rw [Bool.eq_iff_iff]; simp
  rw [clean_eq_ok_iff]
  constructor
  · rintro ⟨hslash, hne, hcomponents, rfl⟩
    refine ⟨parts raw.toList, not_mem_parts_slash _, ?_, ?_, ?_⟩
    · rw [← join_eq_intercalate, join_parts]
    · rw [ne_eq, head?_parts, not_or]
      refine ⟨fun hnil => ?_, hslash⟩
      rw [hnil] at hne
      exact hne rfl
    · simp only [← hfilter, ← join_eq_intercalate, String.toList_ofList, and_true]
      exact ⟨hne, hcomponents⟩
  · rintro ⟨written, hslash, hraw, hhead, h⟩
    simp only [← hfilter, ← join_eq_intercalate] at h hraw
    obtain ⟨hne, hcomponents, hname⟩ := h
    have hwritten : written ≠ [] := by
      rintro rfl
      exact hne rfl
    have hparts : parts raw.toList = written := by rw [hraw, parts_join hwritten hslash]
    rw [hparts]
    refine ⟨fun hroot => hhead ?_, hne, hcomponents, ?_⟩
    · rw [← hparts, head?_parts]
      exact .inr hroot
    · rw [← String.toList_inj, hname, String.toList_ofList]

/-- For every name, whether hidden names are allowed or not: the name is accepted exactly if it has
a clean form, and this is the result; the result is its own clean form. In a directory a name is
accepted exactly if its clean form without hidden components is the directory, a slash and one
further component. -/
theorem clean_exact (raw : String) (allowHidden : Bool) :
    (∀ name, clean raw allowHidden = .ok name ↔
      IsCleanForm allowHidden raw.toList name.toList) ∧
    (∀ name, clean raw allowHidden = .ok name → clean name allowHidden = .ok name) ∧
    ∀ dir name, sanitizeIn raw dir = .ok name ↔ sanitize raw = .ok name ∧
      ∃ file, Component false file ∧ name.toList = dir.toList ++ '/' :: file := by
  refine ⟨fun name => clean_eq_ok_iff_isCleanForm, fun name h => ?_,
    fun dir name => sanitizeIn_eq_ok_iff⟩
  obtain ⟨-, hne, hcomponents, rfl⟩ := clean_eq_ok_iff.mp h
  exact clean_join hne hcomponents

/-- Dots and slashes that lead nowhere are dropped, also in front and at the end. -/
example : clean "./units//./0.bin/" false = .ok "units/0.bin" := by decide

end GrammarEngine.EntryName
