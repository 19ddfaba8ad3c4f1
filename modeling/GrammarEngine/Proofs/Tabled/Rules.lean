import GrammarEngine.Proofs.Tabled.Expressions

/-!
# Rules and results over tables

A run follows the search through the bodies of rules, and so through whole invocations. Each level
that an invocation goes down remembers an invocation that had not been remembered before, and there
are only so many that calls can lead to.

What a run makes of its table and of the furthest refused token is then what the search makes of its
derivations and of its own notes: the tree of the first match, or the fault of a run that did not
match.
-/
namespace GrammarEngine.Tabled

variable {g : Setting} {input : Array Token} {keys : Finset Invocation} {depth : Nat}
  {table : Table} {i : Invocation} {inv : Invoker} {inv' : Search.Invoker}

/-! ## Bodies -/

theorem run_addRow (r : TableRow) (s : State) :
    ((addRow r).run s).run = some (.ok (s.table.size, { s with table := s.table.push r })) := rfl

/-- The match of an invocation with the parts of a line is entered into the table. -/
theorem enter_follows {r : Line} {r' : Row}
    (hr : SameEnd input.size (SameParts input table) r r') (suffix : Option UInt32) :
    Follows g input keys depth table (enter i r) (pure (Search.derivation i suffix r'))
      fun t => SameEnd input.size (SameMatch input t) where
  answers s t hst hext c t' hrun := by
    obtain ⟨rfl, rfl⟩ := Prod.mk.inj (Except.ok.inj hrun)
    have hpush := Extends.push s.table ⟨i.rule, i.start, r.stop, r.value.toList⟩
    refine ⟨⟨r.stop, s.table.size⟩, { s with table := s.table.push _ },
      run_bind_of_ok (run_addRow _ s), hst.addRow _, hpush, Nat.le_refl _, hr.stop, hr.le, ?_⟩
    refine .rule suffix ?_ hr.le (hr.value.mono (hext.trans hpush))
    rw [← hr.stop]
    exact Array.getElem?_push_size
  fails s t _ _ e hrun := by cases hrun

theorem enterAll_follows {rows : List Line} {rows' : List Row}
    (h : Lines input table rows rows') (suffix : Option UInt32) :
    Follows g input keys depth table (rows.mapM (enter i))
      (pure (rows'.map (Search.derivation i suffix))) (Matches input) := by
  have hpure : ∀ rs : List Row, (pure (rs.map (Search.derivation i suffix)) :
      Search (List (Branch Derivation))) =
        rs.mapM fun r => pure (Search.derivation i suffix r) := fun rs => by
    rw [List.mapM_pure]
  rw [hpure]
  exact Follows.mapM (lasting_sameMatch.sameEnd _) (h.imp fun r r' hr u hu =>
    enter_follows (lasting_sameParts.sameEnd _ hu hr) suffix)

theorem lasting_goesOn {V : Table → Nat → Derivation → Prop} (hV : Lasting V) (size : Nat)
    (c : Branch Derivation) : Lasting (GoesOn V size c) :=
  fun _ _ hext _ _ h => h.imp fun _ _ hbd => ⟨hV.sameEnd size hext hbd.1, hbd.2⟩

theorem growth_follows (hg : Shows g input)
    (hinv : InvokesAlike g input keys depth table inv inv')
    {suffixes : List Suffix} (hcalls : ∀ s ∈ suffixes, Admits input keys s.body.calls)
    {u : Table} (hu : Extends table u) {b : Branch Nat} {b' : Branch Derivation}
    (hb : SameEnd input.size (SameMatch input u) b b') :
    Follows g input keys depth u (growth g inv i suffixes b)
      (Search.growth input inv' i suffixes b') (GoesOn (SameMatch input) input.size b') := by
  rw [growth, Search.growth]
  have hlasting : Lasting (GoesOn (SameMatch input) input.size b') :=
    lasting_goesOn lasting_sameMatch input.size b'
  refine (Follows.mapM hlasting (List.forall₂_same.mpr fun s hs v hv => ?_)).bind
    fun v found found' _ hfound => .pure fun w hw => List.rel_flatten
      (hlasting.forall₂ hw hfound)
  have hrow : SameEnd input.size (SameParts input v) ⟨b.stop, .single (.rule b.value)⟩
      (Row.single b'.stop b'.value) := ⟨hb.stop, hb.le, .cons (hb.value.mono hv) .nil⟩
  refine (round_follows hrow (eval_follows hg hinv s.body
    (hcalls s (List.mem_of_mem_filter hs)) v b'.stop (hu.trans hv) hb.le)).bind
    fun w rows rows' _ hrows => ?_
  refine (enterAll_follows (hrows.imp fun _ _ h => h.1) (some s.precedence)).of_pure.mono ?_
  rintro z bs ds - ⟨rfl, hbs⟩
  refine forall₂_and_right hbs fun d hd => ?_
  obtain ⟨r', hr', rfl⟩ := List.mem_map.mp hd
  obtain ⟨r, -, hr⟩ := exists_of_mem_right hrows hr'
  exact hr.2

theorem matchBody_follows (hg : Shows g input)
    (hinv : InvokesAlike g input keys depth table inv inv')
    (hplace : i.start ≤ input.size) {body : RuleBody} (hcalls : Admits input keys body.calls) :
    Follows g input keys depth table (matchBody g inv i body)
      (Search.matchBody input inv' i body) (Matches input) := by
  cases body with
  | plain body =>
      rw [matchBody, Search.matchBody]
      exact (eval_follows hg hinv body hcalls table i.start (.refl _) hplace).bind
        fun u rows rows' _ hrows => enterAll_follows hrows none
  | leftRecursive primary suffixes =>
      rw [matchBody, Search.matchBody]
      have hsuffixes : ∀ s ∈ suffixes, Admits input keys s.body.calls := fun s hs c hc =>
        hcalls.right c (List.mem_flatMap.mpr ⟨s, hs, hc⟩)
      refine (eval_follows hg hinv primary hcalls.left table i.start (.refl _) hplace).bind
        fun u rows rows' hu hrows => ?_
      refine ((enterAll_follows hrows none).bind fun v seeds seeds' hv hseeds => ?_ :
        Follows g input keys depth u _ (pure (rows'.map (Search.derivation i none)) >>=
          Search.visitAll (Search.growth input inv' i suffixes) true (input.size + 1)) _)
      exact visitAll_follows lasting_sameMatch
        (fun w b b' hw hb => growth_follows hg hinv hsuffixes hw hb) (hu.trans hv) hseeds

/-! ## Invocations -/

variable {s : State}

theorem run_memoized_of_some {find : Run (List (Branch Nat))} {known : List (Branch Nat)}
    (h : s.memo[i]? = some known) : ((memoized i find).run s).run = some (.ok (known, s)) := by
  rw [memoized, run_bind_of_ok (show ((get : Run State).run s).run = some (.ok (s, s)) from rfl), h]
  rfl

theorem run_memoized_of_none {find : Run (List (Branch Nat))} (h : s.memo[i]? = none) :
    ((memoized i find).run s).run =
      ((find >>= fun found => modify (fun s => s.remember i found) >>= fun _ => pure found).run
        (s.remember i [])).run := by
  rw [memoized, run_bind_of_ok (show ((get : Run State).run s).run = some (.ok (s, s)) from rfl), h]
  rfl

/-- A search remembers an invocation before it goes a level down, so there is less room below. -/
theorem memoized_follows {find : Run (List (Branch Nat))}
    {find' : Search (List (Branch Derivation))}
    (hi : i ∈ keys) (hfind : Follows g input keys depth table find find' (Matches input)) :
    Follows g input keys (depth + 1) table (memoized i find) (Search.memoized i find')
      (Matches input) where
  answers s t hst hext found t'' hrun := by
    cases hmemo : t.memo[i]? with
    | some known =>
        rw [Parser.run_memoized_of_some hmemo] at hrun
        obtain ⟨rfl, rfl⟩ := Prod.mk.inj (Except.ok.inj hrun)
        obtain ⟨rows, hrows, hmatches⟩ := hst.known i known hmemo
        exact ⟨rows, s, run_memoized_of_some hrows, hst, .refl _, Nat.le_refl _, hmatches⟩
    | none =>
        rw [Parser.run_memoized_of_none hmemo] at hrun
        obtain ⟨⟨found', t'⟩, hfound, hrun⟩ := bind_eq_ok.mp hrun
        obtain ⟨rfl, rfl⟩ := Prod.mk.inj (Except.ok.inj hrun)
        obtain ⟨rows, s', hrun', hst', hext', hroom, hmatches⟩ :=
          hfind.answers (s.remember i []) (t.remember i []) (hst.remember i .nil) hext _ _ hfound
        refine ⟨rows, s'.remember i rows, ?_, hst'.remember i hmatches, hext', ?_, hmatches⟩
        · exact (run_memoized_of_none (hst.unknown i hmemo)).trans (run_bind_of_ok hrun')
        · exact (room_remember_le _ _ _).trans (hroom.trans (room_remember_le _ _ _))
  fails s t hst hext e hrun := by
    cases hmemo : t.memo[i]? with
    | some known =>
        rw [Parser.run_memoized_of_some hmemo] at hrun
        cases hrun
    | none =>
        rw [Parser.run_memoized_of_none hmemo] at hrun
        cases hfound : find'.run (t.remember i []) with
        | ok r =>
            rw [hfound] at hrun
            cases hrun
        | error e' =>
            rw [hfound] at hrun
            obtain rfl : e' = e := Except.error.inj hrun
            obtain ⟨hroom, name, hname, hrun'⟩ :=
              hfind.fails (s.remember i []) (t.remember i []) (hst.remember i .nil) hext _ hfound
            have hnew : i ∉ t.memo := by simpa using hmemo
            refine ⟨lt_of_le_of_lt hroom (room_remember_lt hi hnew []), name, hname, ?_⟩
            exact (run_memoized_of_none (hst.unknown i hmemo)).trans (run_bind_of_error hrun')

/-! ## Invocations to a depth -/

/-- Rule bodies and names are there for all invocations that can be made, and what the bodies call
can be made too. -/
structure Closed (g : Setting) (input : Array Token) (keys : Finset Invocation) : Prop where
  start : ∀ i ∈ keys, i.start ≤ input.size
  name : ∀ i ∈ keys, ∃ name, g.names[i.rule.toNat]? = some name
  body : ∀ i ∈ keys, ∃ body, g.bodies[i.rule.toNat]? = some body ∧ Admits input keys body.calls

/-- The induction is on the depth that is left. -/
theorem invoke_follows (hg : Shows g input) (hclosed : Closed g input keys) (depth : Nat)
    (table : Table) (hi : i ∈ keys) :
    Follows g input keys (depth + 1) table (invoke g depth i)
      (Search.invoke g.bodies input depth i) (Matches input) := by
  induction depth generalizing i table with
  | zero =>
      refine memoized_follows hi ⟨fun s t _ _ found t' hrun => ?_, fun s t _ _ e hrun => ?_⟩
      · cases hrun
      · obtain ⟨name, hname⟩ := hclosed.name i hi
        obtain rfl : ⟨i.rule⟩ = e := Except.error.inj hrun
        exact ⟨Nat.zero_le _, name, hname, by rw [hname]; rfl⟩
  | succ depth ih =>
      obtain ⟨body, hbody, hcalls⟩ := hclosed.body i hi
      refine memoized_follows hi ?_
      rw [hbody, lookUp_bind]
      exact matchBody_follows hg (fun u k _ hk => ih u hk) (hclosed.start i hi) hcalls

/-! ## Trees -/

open SyntaxTree (ofDerivation ofDerivations)

theorem lastIndex_eq (hg : Shows g input) {start stop : Nat} (hstop : stop ≤ input.size) :
    lastIndex g start stop =
      some (if start < stop then some (SyntaxTree.tokenIndex input (stop - 1)) else none) := by
  rw [lastIndex, hg.visible, Array.getElem?_map, SyntaxTree.tokenIndex]
  split
  · rw [Array.getElem?_eq_getElem (by omega : stop - 1 < input.size)]
    rfl
  · rfl

theorem startIndex_eq (hg : Shows g input) (place : Nat) :
    (g.visible[min place (g.visible.size - 1)]?).getD 0 = SyntaxTree.startIndex input place := by
  rw [hg.visible, Array.size_map, Array.getElem?_map, SyntaxTree.startIndex]

/-- The tree of a part. -/
def buildPart (g : Setting) (table : Table) : Part → Option SyntaxTree
  | .token index => some (.token index)
  | .rule row => build g table row

theorem build_of_getElem? {row : Nat} {r : TableRow} (h : table[row]? = some r) :
    build g table row = do
      let children ← r.parts.mapM (buildPart g table)
      let stop ← lastIndex g r.start r.stop
      return .rule r.rule.toNat ((g.visible[min r.start (g.visible.size - 1)]?).getD 0) stop
        children := by
  rw [build, h, Option.bind_eq_bind, Option.bind_some]
  congr 2

mutual
/-- The cases are those of derivations. -/
theorem buildPart_eq (hg : Shows g input) : ∀ {part : Part} {d : Derivation},
    Denotes input table part d → buildPart g table part = some (ofDerivation input d)
  | _, _, .token h => by
      rw [buildPart, ofDerivation, SyntaxTree.tokenIndex, h]
      rfl
  | _, _, .rule suffix hrow hstop hparts => by
      rw [buildPart, build_of_getElem? hrow, mapM_buildPart_eq hg hparts, lastIndex_eq hg hstop,
        startIndex_eq hg, ofDerivation]
      rfl

theorem mapM_buildPart_eq (hg : Shows g input) : ∀ {parts : List Part} {ds : List Derivation},
    DenotesAll input table parts ds →
      parts.mapM (buildPart g table) = some (ofDerivations input ds)
  | _, _, .nil => rfl
  | _, _, .cons hpart hparts => by
      rw [List.mapM_cons, buildPart_eq hg hpart, mapM_buildPart_eq hg hparts, ofDerivations]
      rfl
end

/-! ## Faults -/

theorem failure_eq (hg : Shows g input) {s : State} {t : SearchState} (hst : Related input s t)
    (p : ParserProgram) : failure g p.names.vocabulary s = some (p.searchFault input t) := by
  rw [failure, ParserProgram.searchFault, hg.visible, Array.size_map, Array.getElem?_map,
    hst.furthest, hst.expected]
  cases h : input[min t.furthest (input.size - 1)]? with
  | none => rfl
  | some token =>
      simp only [Option.map_some, hg.tokens _ _ h]

/-! ## Runs -/

variable {p : ParserProgram} {rule : String} {index : Nat}
  {stream : TokenStream}

/-- The setting of a stream shows what its visible tokens are, if they are found by their indices.
-/
theorem shows_ofStream (hindex : ∀ (k : Nat) t, stream.tokens[k]? = some t → t.index = k) :
    Shows (Setting.ofStream p stream) stream.visible.toArray where
  visible := by rw [Setting.ofStream, List.map_toArray]
  tokens place t h := by
    have hmem : t ∈ stream.visible := List.mem_of_getElem? (by simpa using h)
    obtain ⟨k, hk⟩ := List.mem_iff_getElem?.mp (TokenStream.mem_tokens_of_mem_visible hmem)
    rw [hindex k t hk, Setting.ofStream]
    simpa using hk

section Run

variable (maxDepth : Nat) (hg : Shows (Setting.ofStream p stream) stream.visible.toArray)
  (hclosed : Closed (Setting.ofStream p stream) stream.visible.toArray keys)
  (hentry : ⟨UInt32.ofNat index, 0, 0⟩ ∈ keys) (hrule : p.ruleIndex? rule = some index)

include hg hclosed hentry

/-- A run comes to the end of the search, and rules cannot nest deeper than there are invocations.
-/
theorem run_cases :
    (∃ e name, p.search stream.visible.toArray index (ParserProgram.clampDepth maxDepth) =
        .error e ∧ p.ruleNames[e.rule.toNat]? = some name ∧
      ParserProgram.clampDepth maxDepth < keys.card ∧
      ((invoke (Setting.ofStream p stream) (ParserProgram.clampDepth maxDepth)
        ⟨UInt32.ofNat index, 0, 0⟩).run {}).run = some (.error name)) ∨
    ∃ found t rows s, p.search stream.visible.toArray index (ParserProgram.clampDepth maxDepth) =
        .ok (found, t) ∧
      ((invoke (Setting.ofStream p stream) (ParserProgram.clampDepth maxDepth)
        ⟨UInt32.ofNat index, 0, 0⟩).run {}).run = some (.ok (rows, s)) ∧
      Related stream.visible.toArray s t ∧ Matches stream.visible.toArray s.table rows found := by
  have hfollows := invoke_follows hg hclosed (ParserProgram.clampDepth maxDepth) #[] hentry
  cases hrun : p.search stream.visible.toArray index (ParserProgram.clampDepth maxDepth) with
  | error e =>
      obtain ⟨hdepth, name, hname, hrun'⟩ := hfollows.fails {} {} related_empty (.refl _) e hrun
      have hroom : room keys {} ≤ keys.card := Finset.card_filter_le _ _
      exact .inl ⟨e, name, rfl, hname, lt_of_lt_of_le hdepth hroom, hrun'⟩
  | ok r =>
      obtain ⟨rows, s, hrun', hst, -, -, hmatches⟩ :=
        hfollows.answers {} {} related_empty (.refl _) r.1 r.2 hrun
      exact .inr ⟨r.1, r.2, rows, s, rfl, hrun', hst, hmatches⟩

include hrule

/-- A run has the answer that the search has. -/
theorem parse_eq : parse p rule stream maxDepth = some (p.parse rule stream maxDepth) := by
  rw [parse, ParserProgram.parse, hrule]
  obtain ⟨e, name, hsearch, hname, -, hrun⟩ | ⟨found, t, rows, s, hsearch, hrun, hst, hmatches⟩ :=
    run_cases maxDepth hg hclosed hentry
  · have hfault : p.nestingFault (ParserProgram.clampDepth maxDepth) e =
        .recursionLimit name (ParserProgram.clampDepth maxDepth) := by
      rw [ParserProgram.nestingFault, hname]
      rfl
    simp only [hsearch, hrun, Option.bind_eq_bind, Option.bind_some, hfault]
    rfl
  · cases hmatches with
    | nil =>
        simp only [hsearch, hrun, Option.bind_eq_bind, Option.bind_some, failure_eq hg hst p]
        rfl
    | @cons b c _ _ hbc _ =>
        have hbuild : build (Setting.ofStream p stream) s.table b.value =
            some (ofDerivation stream.visible.toArray c.value) := buildPart_eq hg hbc.value
        simp only [hsearch, hrun, Option.bind_eq_bind, Option.bind_some, hbuild]
        rfl

/-- How the run of a rule ends. It nests too deep only where there are more invocations than levels.
-/
theorem parse_cases :
    (∃ name ∈ p.ruleNames, ParserProgram.clampDepth maxDepth < keys.card ∧
      p.parse rule stream maxDepth =
        .error (.recursionLimit name (ParserProgram.clampDepth maxDepth))) ∨
    (∃ r root, p.parse rule stream maxDepth = .ok r ∧ r.root = some root ∧
      r.faults = stream.faults) ∨
    ∃ r fault, p.parse rule stream maxDepth = .ok r ∧ r.root = none ∧
      r.faults = stream.faults ++ [fault] := by
  rw [ParserProgram.parse, hrule]
  obtain ⟨e, name, hsearch, hname, hdepth, -⟩ | ⟨found, t, rows, s, hsearch, -⟩ :=
    run_cases maxDepth hg hclosed hentry
  · refine .inl ⟨name, List.mem_of_getElem? hname, hdepth, ?_⟩
    simp only [hsearch, ParserProgram.nestingFault, hname]
    rfl
  · cases found with
    | nil =>
        simp only [hsearch]
        exact .inr (.inr ⟨_, _, rfl, rfl, rfl⟩)
    | cons b rest =>
        simp only [hsearch]
        exact .inr (.inl ⟨_, _, rfl, rfl, List.append_nil _⟩)

end Run

end GrammarEngine.Tabled
