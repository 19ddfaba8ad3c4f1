import GrammarEngine.Proofs.Checked
import GrammarEngine.Proofs.Notation.Written

/-!
# What the reader accepts

The reader follows the notation. Where characters write a sequence of forms, reading them changes
nothing but what has been read, so that reading ends as it does from there on. Conversely, what the
reader takes together between two forms is white space, a comment, a form or a parenthesis. So a
text that is read to its end closes all open lists, and what it has in front of every closing
parenthesis is a sequence.
-/
namespace GrammarEngine.Sexpr

/-! ## Steps -/

namespace ReaderState

/-- What the reader gives in the end if these characters are left. -/
def outcome (s : ReaderState) (cs : List Char) : Except ReadError (List Sexpr) :=
  s.run cs >>= finish

variable {s t : ReaderState} {p first : Position} {c : Char}
  {before chars digits cs ds rest content : List Char} {items xs forms : List Sexpr} {v : Sexpr}
  {enclosing : List OpenList} {depth : Nat}

theorem outcome_nil (s : ReaderState) : s.outcome [] = s.finish := rfl

theorem outcome_cons (s : ReaderState) (c : Char) (cs : List Char) :
    s.outcome (c :: cs) =
      s.take c >>= fun t => { t with position := s.position.step c }.outcome cs := by
  cases h : s.take c <;> simp [outcome, run, step, h, bind, Except.bind, pure, Except.pure]

theorem outcome_of_take (h : s.take c = .ok t) :
    s.outcome (c :: cs) = { t with position := s.position.step c }.outcome cs := by
  rw [outcome_cons, h]
  rfl

theorem outcome_plain (hquote : c ≠ '"') (hbackslash : c ≠ '\\') :
    outcome ⟨p, .string first chars, items, enclosing⟩ (c :: cs) =
      outcome ⟨p.step c, .string first (c :: chars), items, enclosing⟩ cs :=
  outcome_of_take (t := ⟨p, .string first (c :: chars), items, enclosing⟩)
    (by simp [take, hquote, hbackslash])

theorem outcome_backslash :
    outcome ⟨p, .string first chars, items, enclosing⟩ ('\\' :: cs) =
      outcome ⟨p.step '\\', .escape first chars, items, enclosing⟩ cs :=
  outcome_of_take (t := ⟨p, .escape first chars, items, enclosing⟩) (by simp [take])

theorem outcome_shortEscape {d : Char} (h : shortEscape? c = some d) :
    outcome ⟨p, .escape first chars, items, enclosing⟩ (c :: cs) =
      outcome ⟨p.step c, .string first (d :: chars), items, enclosing⟩ cs := by
  have hu : (c == 'u') = false := by
    rw [beq_eq_false_iff_ne]
    rintro rfl
    simp [shortEscape?] at h
  exact outcome_of_take (t := ⟨p, .string first (d :: chars), items, enclosing⟩)
    (by simp [take, hu, h])

theorem outcome_codeOpening :
    outcome ⟨p, .escape first chars, items, enclosing⟩ ('u' :: '\x7b' :: cs) =
      outcome ⟨p.after ['u', '\x7b'], .code first chars [], items, enclosing⟩ cs := by
  rw [outcome_of_take (t := ⟨p, .codeStart first chars, items, enclosing⟩) (by simp [take]),
    outcome_of_take (t := ⟨p.step 'u', .code first chars [], items, enclosing⟩) (by simp [take])]
  rfl

theorem outcome_codeDigit (h : Text.isHexDigit c = true) :
    outcome ⟨p, .code first chars digits, items, enclosing⟩ (c :: cs) =
      outcome ⟨p.step c, .code first chars (c :: digits), items, enclosing⟩ cs := by
  have hbrace : (c == '\x7d') = false := by
    rw [beq_eq_false_iff_ne]
    rintro rfl
    exact absurd h (by decide)
  exact outcome_of_take (t := ⟨p, .code first chars (c :: digits), items, enclosing⟩)
    (by simp [take, hbrace, h])

theorem outcome_codeDigits (h : ∀ c ∈ cs, Text.isHexDigit c = true) :
    outcome ⟨p, .code first chars digits, items, enclosing⟩ (cs ++ rest) =
      outcome ⟨p.after cs, .code first chars (cs.reverse ++ digits), items, enclosing⟩ rest := by
  induction cs generalizing p digits with
  | nil => rfl
  | cons c cs ih =>
      obtain ⟨hc, hcs⟩ := List.forall_mem_cons.mp h
      rw [List.cons_append, outcome_codeDigit hc, ih hcs, List.reverse_cons, List.append_assoc]
      rfl

theorem outcome_codeClosing (h : Literal.Hexadecimal digits.reverse c) :
    outcome ⟨p, .code first chars digits, items, enclosing⟩ ('\x7d' :: cs) =
      outcome ⟨p.step '\x7d', .string first (c :: chars), items, enclosing⟩ cs :=
  outcome_of_take (t := ⟨p, .string first (c :: chars), items, enclosing⟩)
    (by simp [take, Literal.charOfHex_eq_some_iff.mpr h])

theorem outcome_escaped (h : Escaped cs c) :
    outcome ⟨p, .escape first chars, items, enclosing⟩ (cs ++ rest) =
      outcome ⟨p.after cs, .string first (c :: chars), items, enclosing⟩ rest := by
  cases h with
  | lineFeed => exact outcome_shortEscape rfl
  | carriageReturn => exact outcome_shortEscape rfl
  | tab => exact outcome_shortEscape rfl
  | backslash => exact outcome_shortEscape rfl
  | quote => exact outcome_shortEscape rfl
  | @code digits _ hcode =>
      have hclose : Literal.Hexadecimal (digits.reverse ++ []).reverse c := by simpa using hcode
      rw [List.append_assoc, List.cons_append, List.cons_append, outcome_codeOpening,
        outcome_codeDigits hcode.isHexDigit, List.singleton_append, outcome_codeClosing hclose]
      simp [Position.after_append]

/-- The content of a string is collected, last character first. -/
theorem outcome_content (h : Content cs content) :
    outcome ⟨p, .string first chars, items, enclosing⟩ (cs ++ rest) =
      outcome ⟨p.after cs, .string first (content.reverse ++ chars), items, enclosing⟩ rest := by
  induction h generalizing p chars with
  | nil => rfl
  | plain hquote hbackslash _ ih =>
      rw [List.cons_append, outcome_plain hquote hbackslash, ih, List.reverse_cons,
        List.append_assoc]
      rfl
  | escaped hescaped _ ih =>
      rw [List.append_assoc, List.cons_append, outcome_backslash, outcome_escaped hescaped, ih,
        List.reverse_cons, List.append_assoc, Position.after_append]
      rfl

theorem outcome_atom (h : ∀ c ∈ cs, isDelimiter c = false) :
    outcome ⟨p, .atom first chars, items, enclosing⟩ (cs ++ rest) =
      outcome ⟨p.after cs, .atom first (cs.reverse ++ chars), items, enclosing⟩ rest := by
  induction cs generalizing p chars with
  | nil => rfl
  | cons c cs ih =>
      obtain ⟨hc, hcs⟩ := List.forall_mem_cons.mp h
      rw [List.cons_append,
        outcome_of_take (t := ⟨p, .atom first (c :: chars), items, enclosing⟩) (by simp [take, hc]),
        ih hcs, List.reverse_cons, List.append_assoc]
      rfl

theorem finish_between :
    finish ⟨p, .between, items, enclosing⟩ =
      if enclosing.isEmpty then .ok items.reverse else .error ⟨p, .unterminatedList⟩ := rfl

/-- In front of what ends it, an atom becomes a value. -/
theorem outcome_ends (hends : Ends rest) :
    outcome ⟨p, .atom first chars, items, enclosing⟩ rest =
      (atomValue first chars.reverse).mapError (⟨p, ·⟩) >>= fun v =>
        outcome ⟨p, .between, v :: items, enclosing⟩ rest := by
  have hend : endAtom ⟨p, .atom first chars, items, enclosing⟩ =
      (atomValue first chars.reverse).mapError (⟨p, ·⟩) >>= fun v =>
        .ok ⟨p, .between, v :: items, enclosing⟩ := by
    simp only [endAtom]
    cases atomValue first chars.reverse <;> rfl
  cases rest with
  | nil =>
      simp only [outcome_nil, finish, hend]
      cases atomValue first chars.reverse <;> rfl
  | cons c rest =>
      have hc := hends c rfl
      simp only [outcome_cons, take, hc, hend, if_true]
      cases atomValue first chars.reverse <;> rfl

/-! ## Sequences -/

theorem outcome_blank (h : Text.isBlank c = true) :
    outcome ⟨p, .between, items, enclosing⟩ (c :: cs) =
      outcome ⟨p.step c, .between, items, enclosing⟩ cs :=
  outcome_of_take (t := ⟨p, .between, items, enclosing⟩) (by simp [take, ReaderState.start, h])

theorem outcome_semicolon :
    outcome ⟨p, .between, items, enclosing⟩ (';' :: cs) =
      outcome ⟨p.step ';', .comment, items, enclosing⟩ cs :=
  outcome_of_take (t := ⟨p, .comment, items, enclosing⟩) rfl

/-- A comment ends in front of the next line feed, or with the text. -/
theorem outcome_comment (hcs : '\n' ∉ cs) (hrest : ∀ c ∈ rest.head?, c = '\n') :
    outcome ⟨p, .comment, items, enclosing⟩ (cs ++ rest) =
      outcome ⟨p.after cs, .between, items, enclosing⟩ rest := by
  induction cs generalizing p with
  | nil =>
      cases rest with
      | nil => rfl
      | cons c rest =>
          obtain rfl := hrest c rfl
          rfl
  | cons c cs ih =>
      obtain ⟨hc, hcs⟩ := List.ne_and_not_mem_of_not_mem_cons hcs
      rw [List.cons_append,
        outcome_of_take (t := ⟨p, .comment, items, enclosing⟩) (by simp [take, Ne.symm hc]), ih hcs]
      rfl

theorem outcome_open (h : enclosing.length < maxNesting) :
    outcome ⟨p, .between, items, enclosing⟩ ('(' :: cs) =
      outcome ⟨p.step '(', .between, [], ⟨p, items⟩ :: enclosing⟩ cs :=
  outcome_of_take (t := ⟨p, .between, [], ⟨p, items⟩ :: enclosing⟩) (if_pos h)

theorem outcome_close {o : OpenList} :
    outcome ⟨p, .between, items, o :: enclosing⟩ (')' :: cs) =
      outcome ⟨p.step ')', .between, .list o.start items.reverse :: o.before, enclosing⟩ cs :=
  outcome_of_take (t := ⟨p, .between, .list o.start items.reverse :: o.before, enclosing⟩) rfl

theorem outcome_quote :
    outcome ⟨p, .between, items, enclosing⟩ ('"' :: cs) =
      outcome ⟨p.step '"', .string p [], items, enclosing⟩ cs :=
  outcome_of_take (t := ⟨p, .string p [], items, enclosing⟩) rfl

theorem outcome_endQuote :
    outcome ⟨p, .string first chars, items, enclosing⟩ ('"' :: cs) =
      outcome ⟨p.step '"', .between, .text first (String.ofList chars.reverse) :: items, enclosing⟩
        cs :=
  outcome_of_take
    (t := ⟨p, .between, .text first (String.ofList chars.reverse) :: items, enclosing⟩) rfl

theorem isDelimiter_eq_false (h : isDelimiter c = false) :
    Text.isBlank c = false ∧ (c == '(') = false ∧ (c == ')') = false ∧ (c == '"') = false ∧
      (c == ';') = false := by
  simpa [isDelimiter, and_assoc] using h

/-- What is no delimiter starts an atom. -/
theorem outcome_start (h : isDelimiter c = false) :
    outcome ⟨p, .between, items, enclosing⟩ (c :: cs) =
      outcome ⟨p.step c, .atom p [c], items, enclosing⟩ cs := by
  obtain ⟨hblank, hopen, hclose, hquote, hcomment⟩ := isDelimiter_eq_false h
  exact outcome_of_take (t := ⟨p, .atom p [c], items, enclosing⟩)
    (by simp [take, ReaderState.start, hblank, hopen, hclose, hquote, hcomment])

/-- A run of characters that no delimiter interrupts is an atom as a whole. -/
theorem outcome_atomValue (hne : cs ≠ []) (hcs : ∀ c ∈ cs, isDelimiter c = false)
    (hends : Ends rest) :
    outcome ⟨p, .between, items, enclosing⟩ (cs ++ rest) =
      (atomValue p cs).mapError (⟨p.after cs, ·⟩) >>= fun v =>
        outcome ⟨p.after cs, .between, v :: items, enclosing⟩ rest := by
  obtain ⟨c, cs, rfl⟩ := List.exists_cons_of_ne_nil hne
  obtain ⟨hc, hcs⟩ := List.forall_mem_cons.mp hcs
  rw [List.cons_append, outcome_start hc, outcome_atom hcs, outcome_ends hends, List.reverse_append,
    List.reverse_reverse]
  rfl

mutual
/-- A form that is written becomes the last item that has been read. The induction follows the
nesting of lists, whose depth the open lists and the bound share. -/
theorem outcome_written (items : List Sexpr) (enclosing : List OpenList) : ∀ {depth : Nat}
    {before cs rest : List Char} {v : Sexpr}, Written depth before cs rest v →
    enclosing.length + depth = maxNesting →
    outcome ⟨.after {} before, .between, items, enclosing⟩ (cs ++ rest) =
      outcome ⟨.after {} (before ++ cs), .between, v :: items, enclosing⟩ rest
  | _, _, _, _, _, .atom hne hcs hends hplace hvalue, _ => by
    obtain rfl := hplace.eq
    rw [outcome_atomValue hne hcs hends, atomValue_eq_ok_iff.mpr hvalue, Position.after_append]
    rfl
  | _, _, _, _, _, .text hplace hcontent, _ => by
    obtain rfl := hplace.eq
    rw [List.append_assoc, List.cons_append, outcome_quote, outcome_content hcontent,
      List.singleton_append, outcome_endQuote]
    simp [Position.after_append]
  | _, before, _, _, _, .list hplace hitems, hdepth => by
    obtain rfl := hplace.eq
    have hinner := outcome_sequence [] (⟨.after {} before, items⟩ :: enclosing) hitems
      (by rw [List.length_cons]; omega)
    rw [Position.after_append, Position.after_cons, Position.after_nil] at hinner
    rw [List.append_assoc, List.cons_append, outcome_open (by omega), List.singleton_append, hinner,
      outcome_close]
    simp [Position.after_append]

theorem outcome_sequence (items : List Sexpr) (enclosing : List OpenList) : ∀ {depth : Nat}
    {before cs rest : List Char} {xs : List Sexpr}, Sequence depth before cs rest xs →
    enclosing.length + depth = maxNesting →
    outcome ⟨.after {} before, .between, items, enclosing⟩ (cs ++ rest) =
      outcome ⟨.after {} (before ++ cs), .between, xs.reverse ++ items, enclosing⟩ rest
  | _, _, _, _, _, .nil, _ => by simp
  | _, _, _, _, _, .blank hc hrest, hdepth => by
    have hnext := outcome_sequence items enclosing hrest hdepth
    rw [Position.after_append, Position.after_cons, Position.after_nil] at hnext
    rw [List.cons_append, outcome_blank hc, hnext, List.append_assoc, List.singleton_append]
  | _, _, _, _, _, .comment hbody hhead hrest, hdepth => by
    have hnext := outcome_sequence items enclosing hrest hdepth
    rw [Position.after_append, Position.after_cons] at hnext
    rw [List.append_assoc, List.cons_append, outcome_semicolon, outcome_comment hbody hhead, hnext,
      List.append_assoc]
  | _, _, _, _, _, .form hform hrest, hdepth => by
    rw [List.append_assoc, outcome_written items enclosing hform hdepth,
      outcome_sequence (_ :: items) enclosing hrest hdepth, List.append_assoc, List.reverse_cons,
      List.append_assoc, List.singleton_append]
end

/-! ## Texts that are read -/

theorem exists_take (h : s.outcome (c :: cs) = .ok forms) : ∃ t, s.take c = .ok t := by
  rw [outcome_cons, bind_eq_ok] at h
  obtain ⟨t, ht, -⟩ := h
  exact ⟨t, ht⟩

/-- A code point that is read to its end is one of a character. -/
theorem exists_code (h : outcome ⟨p, .code first chars digits, items, enclosing⟩ cs = .ok forms) :
    ∃ ds rest c, cs = ds ++ '\x7d' :: rest ∧ Literal.Hexadecimal (digits.reverse ++ ds) c := by
  induction cs generalizing p digits with
  | nil => cases h
  | cons d cs ih =>
      obtain ⟨t, ht⟩ := exists_take h
      by_cases hbrace : d = '\x7d'
      · subst hbrace
        cases hcode : (Text.readHex 0x100000000 digits.reverse).bind Text.charOfCode? with
        | none => simp [take, hcode] at ht
        | some c =>
            exact ⟨[], cs, c, rfl, by rwa [List.append_nil, ← Literal.charOfHex_eq_some_iff]⟩
      · by_cases hdigit : Text.isHexDigit d = true
        · rw [outcome_codeDigit hdigit] at h
          obtain ⟨ds, rest, c, rfl, hcode⟩ := ih h
          exact ⟨d :: ds, rest, c, rfl, by simpa using hcode⟩
        · simp [take, hbrace, hdigit] at ht

theorem escaped_of_shortEscape? {d : Char} (h : shortEscape? c = some d) : Escaped [c] d := by
  unfold shortEscape? at h
  split at h <;> cases h
  · exact .lineFeed
  · exact .carriageReturn
  · exact .tab
  · exact .backslash
  · exact .quote

/-- An escape that is read to its end denotes a character. -/
theorem exists_escaped (h : outcome ⟨p, .escape first chars, items, enclosing⟩ cs = .ok forms) :
    ∃ e rest c, cs = e ++ rest ∧ Escaped e c := by
  cases cs with
  | nil => cases h
  | cons d cs =>
      obtain ⟨t, ht⟩ := exists_take h
      by_cases hu : d = 'u'
      · subst hu
        cases cs with
        | nil => cases h
        | cons b cs =>
            rw [outcome_of_take (t := ⟨p, .codeStart first chars, items, enclosing⟩) rfl] at h
            obtain ⟨t, ht⟩ := exists_take h
            by_cases hbrace : b = '\x7b'
            · subst hbrace
              rw [outcome_of_take rfl] at h
              obtain ⟨ds, rest, c, rfl, hcode⟩ := exists_code h
              exact ⟨_, rest, c, by simp, .code hcode⟩
            · simp [take, hbrace] at ht
      · cases hshort : shortEscape? d with
        | none => simp [take, hu, hshort] at ht
        | some c => exact ⟨[d], cs, c, rfl, escaped_of_shortEscape? hshort⟩

/-- A string that is read to its end has a closing quote. -/
theorem exists_content (h : outcome ⟨p, .string first chars, items, enclosing⟩ cs = .ok forms) :
    ∃ body rest content, cs = body ++ '"' :: rest ∧ Content body content := by
  induction hlength : cs.length using Nat.strongRecOn generalizing p chars cs with
  | ind n ih =>
      cases cs with
      | nil => cases h
      | cons c cs =>
          rw [List.length_cons] at hlength
          -- an escape takes several characters, so the induction is on the length
          by_cases hquote : c = '"'
          · subst hquote
            exact ⟨[], cs, [], rfl, .nil⟩
          by_cases hbackslash : c = '\\'
          · subst hbackslash
            rw [outcome_backslash] at h
            obtain ⟨e, after, d, rfl, hescaped⟩ := exists_escaped h
            rw [outcome_escaped hescaped] at h
            rw [List.length_append] at hlength
            obtain ⟨body, rest, content, rfl, hcontent⟩ := ih after.length (by omega) h rfl
            exact ⟨'\\' :: e ++ body, rest, d :: content, by simp, .escaped hescaped hcontent⟩
          · rw [outcome_plain hquote hbackslash] at h
            obtain ⟨body, rest, content, rfl, hcontent⟩ := ih cs.length (by omega) h rfl
            exact ⟨c :: body, rest, c :: content, rfl, .plain hquote hbackslash hcontent⟩

/-- What the reader takes together where it is between two forms: characters in front of the rest of
a text, after which it has read the given items and is inside the given lists. -/
inductive Takes (before : List Char) (items : List Sexpr) :
    List OpenList → List Char → List Char → List Sexpr → List OpenList → Prop
  | blank {enclosing : List OpenList} {c : Char} {rest : List Char} : Text.isBlank c = true →
      Takes before items enclosing [c] rest items enclosing
  | comment {enclosing : List OpenList} {cs rest : List Char} : '\n' ∉ cs →
      (∀ c ∈ rest.head?, c = '\n') → Takes before items enclosing (';' :: cs) rest items enclosing
  | form {enclosing : List OpenList} {depth : Nat} {cs rest : List Char} {v : Sexpr} :
      enclosing.length + depth = maxNesting → Written depth before cs rest v →
      Takes before items enclosing cs rest (v :: items) enclosing
  | opening {enclosing : List OpenList} {rest : List Char} : enclosing.length < maxNesting →
      Takes before items enclosing ['('] rest [] (⟨.after {} before, items⟩ :: enclosing)
  | closing {o : OpenList} {outer : List OpenList} {rest : List Char} :
      Takes before items (o :: outer) [')'] rest (.list o.start items.reverse :: o.before) outer

/-- A text is cut in front of the first character that is wanted. -/
theorem exists_cut (wanted : Char → Bool) (cs : List Char) :
    ∃ front rest, cs = front ++ rest ∧ (∀ c ∈ front, wanted c = false) ∧
      ∀ c ∈ rest.head?, wanted c = true := by
  refine ⟨cs.takeWhile fun c => !wanted c, cs.dropWhile fun c => !wanted c,
    List.takeWhile_append_dropWhile.symm, fun c hc => ?_, fun c hc => ?_⟩
  · simpa using List.mem_takeWhile_imp hc
  · have hhead := List.head?_dropWhile_not (fun c => !wanted c) cs
    rw [Option.mem_def.mp hc] at hhead
    simpa using hhead

/-- A text that is read to its end starts with what can be taken. -/
theorem exists_takes (hopen : enclosing.length ≤ maxNesting)
    (h : outcome ⟨.after {} before, .between, items, enclosing⟩ (c :: cs) = .ok forms) :
    ∃ front rest items' enclosing', c :: cs = front ++ rest ∧
      Takes before items enclosing front rest items' enclosing' := by
  obtain ⟨depth, hdepth⟩ := Nat.exists_eq_add_of_le hopen
  have hplace : Position.Behind before (.after {} before) := Position.behind_after before
  by_cases hdelimiter : isDelimiter c = true
  · -- white space, the two parentheses, a quote and a semicolon, in this order
    simp only [isDelimiter, Bool.or_eq_true, beq_iff_eq] at hdelimiter
    obtain (((hblank | rfl) | rfl) | rfl) | rfl := hdelimiter
    · exact ⟨[c], cs, items, enclosing, rfl, .blank hblank⟩
    · obtain ⟨t, ht⟩ := exists_take h
      by_cases hnesting : enclosing.length < maxNesting
      · exact ⟨['('], cs, _, _, rfl, .opening hnesting⟩
      · simp [take, ReaderState.start, hnesting, Text.isBlank] at ht
    · cases enclosing with
      | nil => cases h
      | cons o outer => exact ⟨[')'], cs, _, outer, rfl, .closing⟩
    · rw [outcome_quote] at h
      obtain ⟨body, rest, content, rfl, hcontent⟩ := exists_content h
      exact ⟨'"' :: body ++ ['"'], rest, _, enclosing, by simp,
        .form hdepth.symm (.text hplace hcontent)⟩
    · obtain ⟨body, rest, rfl, hbody, hrest⟩ := exists_cut (· == '\n') cs
      exact ⟨';' :: body, rest, items, enclosing, rfl,
        .comment (fun hin => by simpa using hbody _ hin) (by simpa using hrest)⟩
  · obtain ⟨more, rest, rfl, hmore, hends⟩ := exists_cut isDelimiter cs
    have hne : c :: more ≠ [] := List.cons_ne_nil _ _
    have hcs : ∀ d ∈ c :: more, isDelimiter d = false :=
      List.forall_mem_cons.mpr ⟨Bool.eq_false_iff.mpr hdelimiter, hmore⟩
    rw [← List.cons_append, outcome_atomValue hne hcs hends, bind_eq_ok] at h
    obtain ⟨v, hv, -⟩ := h
    rw [mapError_eq_ok, atomValue_eq_ok_iff] at hv
    exact ⟨c :: more, rest, v :: items, enclosing, rfl,
      .form hdepth.symm (.atom hne hcs hends hplace hv)⟩

mutual
/-- What is left of a text starts with items of the innermost open list and closes all open
lists. -/
inductive Closes : List OpenList → List Char → List Sexpr → List Char → List Sexpr → Prop
  | items {enclosing : List OpenList} {depth : Nat} {before body rest : List Char}
      {items xs forms : List Sexpr} : enclosing.length + depth = maxNesting →
      Sequence depth before body rest xs →
      Closed enclosing (before ++ body) (xs.reverse ++ items) rest forms →
      Closes enclosing before items (body ++ rest) forms

/-- What is left of a text is nothing, or closes the innermost open list. -/
inductive Closed : List OpenList → List Char → List Sexpr → List Char → List Sexpr → Prop
  | last {before : List Char} {items : List Sexpr} : Closed [] before items [] items.reverse
  | close {o : OpenList} {outer : List OpenList} {before rest : List Char}
      {items forms : List Sexpr} :
      Closes outer (before ++ [')']) (.list o.start items.reverse :: o.before) rest forms →
      Closed (o :: outer) before items (')' :: rest) forms
end

namespace Closes

theorem blank (hc : Text.isBlank c = true) (h : Closes enclosing (before ++ [c]) items cs forms) :
    Closes enclosing before items (c :: cs) forms := by
  obtain ⟨hdepth, hitems, hclosed⟩ := h
  rw [List.append_assoc] at hclosed
  exact .items hdepth (.blank hc hitems) hclosed

theorem comment (hcs : '\n' ∉ cs) (hrest : ∀ c ∈ rest.head?, c = '\n')
    (h : Closes enclosing (before ++ ';' :: cs) items rest forms) :
    Closes enclosing before items (';' :: cs ++ rest) forms := by
  obtain ⟨hdepth, hitems, hclosed⟩ := h
  rw [List.append_assoc] at hclosed
  rw [← List.append_assoc]
  exact .items hdepth (.comment hcs hrest hitems) hclosed

theorem form (hdepth : enclosing.length + depth = maxNesting)
    (hform : Written depth before cs rest v)
    (h : Closes enclosing (before ++ cs) (v :: items) rest forms) :
    Closes enclosing before items (cs ++ rest) forms := by
  obtain ⟨hdepth', hitems, hclosed⟩ := h
  obtain rfl := Nat.add_left_cancel (hdepth.trans hdepth'.symm)
  rw [← List.append_assoc]
  exact .items hdepth (.form hform hitems) (by simpa using hclosed)

theorem list (hplace : Position.Behind before p)
    (h : Closes (⟨p, items⟩ :: enclosing) (before ++ ['(']) [] cs forms) :
    Closes enclosing before items ('(' :: cs) forms := by
  obtain ⟨hdepth, hitems, hclosed⟩ := h
  rw [List.length_cons] at hdepth
  cases hclosed with
  | close houter =>
      rw [Nat.add_right_comm, Nat.add_assoc] at hdepth
      have hnext := form hdepth (.list hplace hitems) (by simpa using houter)
      simpa using hnext

theorem close {o : OpenList} (hdepth : enclosing.length < maxNesting)
    (h : Closes enclosing (before ++ [')']) (.list o.start items.reverse :: o.before) cs forms) :
    Closes (o :: enclosing) before items (')' :: cs) forms := by
  obtain ⟨depth, hdepth⟩ := Nat.exists_eq_add_of_le hdepth
  have hopen : (o :: enclosing).length + depth = maxNesting := hdepth.symm
  exact .items hopen .nil (.close (by simpa using h))

end Closes

namespace Takes

variable {front : List Char} {items' : List Sexpr} {enclosing' : List OpenList}

theorem length_pos (h : Takes before items enclosing front rest items' enclosing') :
    0 < front.length := by
  cases h with
  | form _ hform =>
      cases hform with
      | atom hne => exact List.length_pos_of_ne_nil hne
      | text => simp
      | list => simp
  | _ => simp

theorem outcome_eq (h : Takes before items enclosing front rest items' enclosing') :
    outcome ⟨.after {} before, .between, items, enclosing⟩ (front ++ rest) =
      outcome ⟨.after {} (before ++ front), .between, items', enclosing'⟩ rest := by
  cases h with
  | form hdepth hform => exact outcome_written items enclosing hform hdepth
  | blank hblank =>
      rw [List.singleton_append, outcome_blank hblank, Position.after_append]
      rfl
  | comment hcs hrest =>
      rw [List.cons_append, outcome_semicolon, outcome_comment hcs hrest, Position.after_append]
      rfl
  | opening hnesting =>
      rw [List.singleton_append, outcome_open hnesting, Position.after_append]
      rfl
  | closing =>
      rw [List.singleton_append, outcome_close, Position.after_append]
      rfl

theorem length_le (h : Takes before items enclosing front rest items' enclosing')
    (hopen : enclosing.length ≤ maxNesting) : enclosing'.length ≤ maxNesting := by
  cases h with
  | opening hnesting => exact hnesting
  | closing => exact Nat.le_of_succ_le hopen
  | _ => exact hopen

theorem closes (h : Takes before items enclosing front rest items' enclosing')
    (hopen : enclosing.length ≤ maxNesting)
    (hrest : Closes enclosing' (before ++ front) items' rest forms) :
    Closes enclosing before items (front ++ rest) forms := by
  cases h with
  | blank hblank => exact .blank hblank hrest
  | comment hcs hhead => exact .comment hcs hhead hrest
  | form hdepth hform => exact .form hdepth hform hrest
  | opening => exact .list (Position.behind_after before) hrest
  | closing => exact .close hopen hrest

end Takes

/-- A text that is read to its end makes up the items of all lists that are still open. The
induction follows what the reader takes together. -/
theorem closes_of_outcome (hopen : enclosing.length ≤ maxNesting)
    (h : outcome ⟨.after {} before, .between, items, enclosing⟩ cs = .ok forms) :
    Closes enclosing before items cs forms := by
  induction hlength : cs.length using Nat.strongRecOn generalizing before items enclosing cs with
  | ind n ih =>
      cases cs with
      | nil =>
          rw [outcome_nil, finish_between] at h
          split at h
          · next hempty =>
            obtain rfl := List.isEmpty_iff.mp hempty
            obtain rfl := Except.ok.inj h
            exact .items (Nat.zero_add maxNesting) .nil .last
          · cases h
      | cons c cs =>
          obtain ⟨front, rest, items', enclosing', hcs, htakes⟩ := exists_takes hopen h
          rw [hcs, htakes.outcome_eq] at h
          rw [hcs, List.length_append] at hlength
          rw [hcs]
          have hfront := htakes.length_pos
          exact htakes.closes hopen (ih rest.length (by omega) (htakes.length_le hopen) h rfl)

end ReaderState

/-- A sequence is read as the forms that it denotes. -/
theorem readAll_of_sequence {text : String} {forms : List Sexpr}
    (h : Sequence maxNesting [] text.toList [] forms) : readAll text = .ok forms := by
  have hread := ReaderState.outcome_sequence [] [] h (Nat.zero_add _)
  rw [List.append_nil, List.append_nil, ReaderState.outcome_nil, ReaderState.finish_between,
    List.reverse_reverse] at hread
  exact hread

/-- What is read is a sequence. -/
theorem sequence_of_readAll {text : String} {forms : List Sexpr} (h : readAll text = .ok forms) :
    Sequence maxNesting [] text.toList [] forms := by
  have hcloses : ReaderState.Closes [] [] [] text.toList forms :=
    ReaderState.closes_of_outcome (Nat.zero_le _) h
  generalize text.toList = cs at hcloses
  obtain ⟨hdepth, hforms, hclosed⟩ := hcloses
  cases hclosed with
  | last =>
      rw [List.length_nil, Nat.zero_add] at hdepth
      simpa [← hdepth] using hforms

/-- The reader accepts exactly the notation, with lists nested no deeper than the limit: a text is
read as forms if and only if it is a sequence that denotes them. Every form has the line and the
column of its first character. -/
theorem readAll_eq_ok_iff {text : String} {forms : List Sexpr} :
    readAll text = .ok forms ↔ Sequence maxNesting [] text.toList [] forms :=
  ⟨sequence_of_readAll, readAll_of_sequence⟩

/-- An escape names its character, and a comment goes up to the end of its line. -/
example : readAll "(a \"\\u\x7b41\x7d\" ; b)\n) -1" =
    .ok [.list ⟨1, 0⟩ [.symbol ⟨1, 1⟩ "a", .text ⟨1, 3⟩ "A"], .int ⟨2, 2⟩ (-1)] := by
  rfl

end GrammarEngine.Sexpr
