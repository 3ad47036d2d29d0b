import Soong.Cmd.Zip2zip

namespace Soong.Zip2zip

open Go

section Selects

variable (pathtoolsMatch : String → String → Except String Bool) (isGlob : String → Bool)
  (rel : String → String → Except String String) (quote : String → String)

def Matches (pattern name : String) : Prop := pathtoolsMatch pattern name = .ok true

instance (pattern name : String) : Decidable (Matches pathtoolsMatch pattern name) :=
  inferInstanceAs (Decidable (_ = _))

/-- The entries the input pattern of a filespec matches, in input order. -/
def selected (input : String) (entries : List (Nat × File)) : List (Nat × File) :=
  entries.filter fun e => decide (Matches pathtoolsMatch input e.2.name)

/-- A matched entry gets no new name: `filepath.Rel` fails, or the check after it rejects. -/
def RenameFails (input output : String) (entries : List (Nat × File)) : Prop :=
  ∃ e ∈ selected pathtoolsMatch input entries, (newName isGlob rel quote input output e.2).toOption = none

instance (input output : String) (entries : List (Nat × File)) :
    Decidable (RenameFails pathtoolsMatch isGlob rel quote input output entries) :=
  inferInstanceAs (Decidable (∃ _ ∈ _, _))

def renamed (input output : String) (entries : List (Nat × File)) : List Pair :=
  (selected pathtoolsMatch input entries).filterMap fun e =>
    (newName isGlob rel quote input output e.2).toOption.map fun name => ⟨e.1, e.2, name, false⟩

/-- A filespec `zip2zip` fails on. -/
def SpecFails (entries : List (Nat × File)) (arg : String) : Prop :=
  '\\' ∈ arg.toList ∨ RenameFails pathtoolsMatch isGlob rel quote (includeSplit arg).1 (includeSplit arg).2 entries

instance (entries : List (Nat × File)) (arg : String) :
    Decidable (SpecFails pathtoolsMatch isGlob rel quote entries arg) :=
  inferInstanceAs (Decidable (_ ∨ _))

/-- The matches of the filespecs, each one's sorted on their own; all entries under their own
names when there is no filespec. -/
def selection (sortOutput sortJava : Bool) (entries : List (Nat × File)) (args : List String) :
    List Pair :=
  if args = [] then
    sortMatches sortOutput sortJava (entries.map fun (index, file) => ⟨index, file, file.name, false⟩)
  else args.flatMap fun arg =>
    sortMatches sortOutput sortJava (renamed pathtoolsMatch isGlob rel quote (includeSplit arg).1 (includeSplit arg).2 entries)

/-- A match that the exclude patterns leave, or that an include pattern brings back. -/
def Kept (excludes includes : List String) (m : Pair) : Prop :=
  (∃ p ∈ excludes, Matches pathtoolsMatch p m.file.name) → ∃ p ∈ includes, Matches pathtoolsMatch p m.file.name

instance (excludes includes : List String) (m : Pair) : Decidable (Kept pathtoolsMatch excludes includes m) :=
  inferInstanceAs (Decidable (_ → _))

def kept (excludes includes : List String) (l : List Pair) : List Pair :=
  l.filter fun m => decide (Kept pathtoolsMatch excludes includes m)

/-- Two different input entries produce one name. -/
def Clash (l : List Pair) : Prop :=
  ∃ a ∈ l, ∃ b ∈ l, a.newName = b.newName ∧ a.index ≠ b.index

instance (l : List Pair) : Decidable (Clash l) :=
  inferInstanceAs (Decidable (∃ a ∈ l, ∃ b ∈ l, _))

def withUncompress (uncompresses : List String) (m : Pair) : Pair :=
  { m with uncompress := uncompresses.any fun u => decide (Matches pathtoolsMatch u m.newName) }

/-- The state the loop over the matches keeps once given the kept matches `done`:
`matchesAfterExcludes` holds the first pair of every name, and `seen` the entry of each. -/
structure Filtered (uncompresses : List String) (state : List Pair × List (String × Nat))
    (done : List Pair) : Prop where
  after : state.1 = (firstByKey Pair.newName done).map (withUncompress pathtoolsMatch uncompresses)
  seen : LookupFirst Pair.newName Pair.index state.2 done
  noClash : ¬Clash done

/-- What `zip2zip` writes: the first pair of every new name among the matches the filespecs
select and the exclude patterns keep, failing exactly on a backslash in a filespec, on a new
name that cannot be computed, or on a name that two different entries produce. The loops are
described by what they return forgetting the text of their errors (`Except.toOption`), the
last one through the state it keeps (`Filtered`).

What the loop yields over the matches `l` after the kept matches `done`. -/
def FilterResult (excludes includes uncompresses : List String)
    (r : Except String (List Pair × List (String × Nat))) (done l : List Pair) : Prop :=
  match r with
  | .ok state => Filtered pathtoolsMatch uncompresses state (done ++ kept pathtoolsMatch excludes includes l)
  | .error _ => Clash (done ++ kept pathtoolsMatch excludes includes l)

variable {pathtoolsMatch isGlob rel quote}

@[simp] theorem filterResult_ok {excludes includes uncompresses : List String}
    {state : List Pair × List (String × Nat)} {done l : List Pair} :
    FilterResult pathtoolsMatch excludes includes uncompresses (.ok state) done l ↔
      Filtered pathtoolsMatch uncompresses state (done ++ kept pathtoolsMatch excludes includes l) := Iff.rfl

@[simp] theorem filterResult_error {excludes includes uncompresses : List String} {err : String}
    {done l : List Pair} :
    FilterResult pathtoolsMatch excludes includes uncompresses (.error err) done l ↔
      Clash (done ++ kept pathtoolsMatch excludes includes l) := Iff.rfl

variable (matchOk : ∀ pattern name err, pathtoolsMatch pattern name ≠ .error err)
include matchOk

theorem multiMatch_ok (patterns : List String) (s : String) :
    multiMatch pathtoolsMatch patterns s = .ok (patterns.any fun p => decide (Matches pathtoolsMatch p s)) := by
  induction patterns with
  | nil => rfl
  | cons f rest ih =>
    unfold multiMatch
    cases found : pathtoolsMatch f s with
    | error err => exact absurd found (matchOk f s err)
    | ok b =>
      cases b with
      | true => simp [Matches, found]
      | false => simp [ih, Matches, found]

omit matchOk in
theorem renameFails_cons {input output : String} {e : Nat × File} {rest : List (Nat × File)} :
    RenameFails pathtoolsMatch isGlob rel quote input output (e :: rest) ↔
      Matches pathtoolsMatch input e.2.name ∧ (newName isGlob rel quote input output e.2).toOption = none ∨
        RenameFails pathtoolsMatch isGlob rel quote input output rest := by
  by_cases matched : Matches pathtoolsMatch input e.2.name <;>
    simp [RenameFails, selected, matched]

omit matchOk in
theorem renamed_cons {input output : String} {e : Nat × File} {rest : List (Nat × File)} :
    renamed pathtoolsMatch isGlob rel quote input output (e :: rest) =
      if Matches pathtoolsMatch input e.2.name then
        ((newName isGlob rel quote input output e.2).toOption.map fun name => ⟨e.1, e.2, name, false⟩).toList ++
          renamed pathtoolsMatch isGlob rel quote input output rest
      else renamed pathtoolsMatch isGlob rel quote input output rest := by
  by_cases matched : Matches pathtoolsMatch input e.2.name
  · cases named : (newName isGlob rel quote input output e.2).toOption <;>
      simp [renamed, selected, matched, named]
  · simp [renamed, selected, matched]

theorem includeMatches_toOption (input output : String) (entries : List (Nat × File)) :
    (includeMatches pathtoolsMatch isGlob rel quote input output entries).toOption =
      if RenameFails pathtoolsMatch isGlob rel quote input output entries then none
      else some (renamed pathtoolsMatch isGlob rel quote input output entries) := by
  induction entries with
  | nil => simp [includeMatches, RenameFails, selected, renamed]
  | cons e rest ih =>
    obtain ⟨index, file⟩ := e
    unfold includeMatches
    cases found : pathtoolsMatch input file.name with
    | error err => exact absurd found (matchOk input file.name err)
    | ok b =>
      cases b with
      | false =>
        have skipped : ¬Matches pathtoolsMatch input file.name := by simp [Matches, found]
        simp only [renameFails_cons, renamed_cons, if_neg skipped]
        simpa [skipped] using ih
      | true =>
        have matched : Matches pathtoolsMatch input file.name := found
        simp only [renamed_cons, if_pos matched]
        cases named : newName isGlob rel quote input output file with
        | error err =>
          rw [if_pos (renameFails_cons.mpr (.inl ⟨matched, by rw [named]; rfl⟩))]
          rfl
        | ok name =>
          have kept : ¬(Matches pathtoolsMatch input file.name ∧
              (newName isGlob rel quote input output file).toOption = none) := by
            simp [named]
          simp only [ok_bind, toOption_bind, ih, renameFails_cons, kept, false_or]
          by_cases fails : RenameFails pathtoolsMatch isGlob rel quote input output rest
          · simp [fails]
          · simp [fails]

theorem selectMatches_toOption (sortOutput sortJava : Bool) (entries : List (Nat × File))
    (args : List String) :
    (selectMatches pathtoolsMatch isGlob rel quote sortOutput sortJava entries args).toOption =
      if ∃ arg ∈ args, SpecFails pathtoolsMatch isGlob rel quote entries arg then none
      else some (args.flatMap fun arg => sortMatches sortOutput sortJava
        (renamed pathtoolsMatch isGlob rel quote (includeSplit arg).1 (includeSplit arg).2 entries)) := by
  induction args with
  | nil => simp [selectMatches]
  | cons arg rest ih =>
    unfold selectMatches
    by_cases backslash : '\\' ∈ arg.toList
    · rw [if_pos backslash, if_pos ⟨arg, List.mem_cons_self, .inl backslash⟩]
      rfl
    · rw [if_neg backslash, toOption_bind, includeMatches_toOption matchOk]
      by_cases fails : RenameFails pathtoolsMatch isGlob rel quote (includeSplit arg).1 (includeSplit arg).2 entries
      · rw [if_pos fails, if_pos ⟨arg, List.mem_cons_self, .inr fails⟩]
        rfl
      · have spec : ¬SpecFails pathtoolsMatch isGlob rel quote entries arg := by
          simp [SpecFails, backslash, fails]
        simp only [if_neg fails, Option.bind_some, toOption_bind, ih, List.exists_mem_cons_iff, spec,
          false_or, List.flatMap_cons]
        split_ifs <;> rfl

omit matchOk in
theorem kept_singleton {excludes includes : List String} {m : Pair} :
    kept pathtoolsMatch excludes includes [m] = if Kept pathtoolsMatch excludes includes m then [m] else [] := by
  by_cases keep : Kept pathtoolsMatch excludes includes m <;> simp [kept, keep]

omit matchOk in
theorem kept_cons {excludes includes : List String} {m : Pair} {rest : List Pair} :
    kept pathtoolsMatch excludes includes (m :: rest) =
      kept pathtoolsMatch excludes includes [m] ++ kept pathtoolsMatch excludes includes rest := by
  rw [kept, kept, kept, ← List.singleton_append, List.filter_append]

/-- The value the exclude and include loops leave in `included`. -/
theorem included_ok (excludes includes : List String) (m : Pair) :
    (if excludes.any (fun p => decide (Matches pathtoolsMatch p m.file.name)) = true then
        multiMatch pathtoolsMatch includes m.file.name else pure true) =
      .ok (decide (Kept pathtoolsMatch excludes includes m)) := by
  rw [multiMatch_ok matchOk]
  by_cases excluded : ∃ p ∈ excludes, Matches pathtoolsMatch p m.file.name
  · have any : excludes.any (fun p => decide (Matches pathtoolsMatch p m.file.name)) = true := by
      simpa using excluded
    simp [any, Kept, excluded, List.any_eq]
  · have none : excludes.any (fun p => decide (Matches pathtoolsMatch p m.file.name)) = false := by
      simpa using excluded
    simp [none, Kept, excluded]

omit matchOk in
/-- The kept matches of a loop over `m :: rest` after `done` are those over `rest` after
`done` and the kept part of `[m]`. -/
theorem filterResult_cons {excludes includes uncompresses : List String}
    {r : Except String (List Pair × List (String × Nat))} {done : List Pair} {m : Pair} {rest : List Pair} :
    FilterResult pathtoolsMatch excludes includes uncompresses r done (m :: rest) ↔
      FilterResult pathtoolsMatch excludes includes uncompresses r (done ++ kept pathtoolsMatch excludes includes [m]) rest := by
  cases r <;> rw [FilterResult, FilterResult, kept_cons, List.append_assoc]

omit matchOk in
theorem clash_append_singleton {l : List Pair} {m : Pair} :
    Clash (l ++ [m]) ↔ Clash l ∨ ∃ a ∈ l, a.newName = m.newName ∧ a.index ≠ m.index := by
  constructor
  · rintro ⟨a, ma, b, mb, same, apart⟩
    simp only [List.mem_append, List.mem_singleton] at ma mb
    rcases ma with ma | rfl <;> rcases mb with mb | rfl
    · exact .inl ⟨a, ma, b, mb, same, apart⟩
    · exact .inr ⟨a, ma, same, apart⟩
    · exact .inr ⟨b, mb, same.symm, Ne.symm apart⟩
    · exact absurd rfl apart
  · rintro (⟨a, ma, b, mb, same, apart⟩ | ⟨a, ma, same, apart⟩)
    · exact ⟨a, by simp [ma], b, by simp [mb], same, apart⟩
    · exact ⟨a, by simp [ma], m, by simp, same, apart⟩

omit matchOk in
theorem Clash.append {l : List Pair} (clash : Clash l) (l' : List Pair) : Clash (l ++ l') := by
  obtain ⟨a, ma, b, mb, same, apart⟩ := clash
  exact ⟨a, by simp [ma], b, by simp [mb], same, apart⟩

omit matchOk in
theorem Filtered.empty (uncompresses : List String) : Filtered pathtoolsMatch uncompresses ([], []) [] :=
  ⟨rfl, LookupFirst.nil, fun ⟨_, member, _⟩ => by simp at member⟩

variable {excludes includes uncompresses : List String}

omit matchOk in
/-- A kept match whose name the entry of its first pair took changes nothing. -/
theorem Filtered.repeat {state : List Pair × List (String × Nat)} {done : List Pair} {m first : Pair}
    (fil : Filtered pathtoolsMatch uncompresses state done)
    (found : done.find? (fun b => b.newName = m.newName) = some first) (same : first.index = m.index) :
    Filtered pathtoolsMatch uncompresses state (done ++ [m]) := by
  have member := List.mem_of_find?_eq_some found
  have name : first.newName = m.newName := by simpa using List.find?_some found
  refine ⟨?_, fil.seen.append_of_isSome (by rw [found]; rfl), ?_⟩
  · have seen : HasKey Pair.newName (firstByKey Pair.newName done) m.newName :=
      hasKey_firstByKey.mpr ⟨first, member, name⟩
    rw [fil.after, firstByKey_append_singleton, if_pos seen]
  · rw [clash_append_singleton]
    rintro (clash | ⟨a, ma, same', apart⟩)
    · exact fil.noClash clash
    -- `a` shares its name with `first`, so with no clash in `done` it has its entry
    · exact fil.noClash ⟨a, ma, first, member, same'.trans name.symm, by rwa [same]⟩

omit matchOk in
/-- A kept match with a new name is appended and filed. -/
theorem Filtered.fresh {state : List Pair × List (String × Nat)} {done : List Pair} {m : Pair}
    (fil : Filtered pathtoolsMatch uncompresses state done)
    (unseen : done.find? (fun b => b.newName = m.newName) = none) :
    Filtered pathtoolsMatch uncompresses
      (state.1 ++ [withUncompress pathtoolsMatch uncompresses m], (m.newName, m.index) :: state.2) (done ++ [m]) := by
  have absent : ∀ a ∈ done, a.newName ≠ m.newName := by simpa using List.find?_eq_none.mp unseen
  refine ⟨?_, fil.seen.append_of_none unseen, ?_⟩
  · have notSeen : ¬HasKey Pair.newName (firstByKey Pair.newName done) m.newName := by
      rw [hasKey_firstByKey]
      rintro ⟨a, ma, same⟩
      exact absent a ma same
    rw [fil.after, firstByKey_append_singleton, if_neg notSeen, List.map_append]
    rfl
  · rw [clash_append_singleton]
    rintro (clash | ⟨a, ma, same, -⟩)
    · exact fil.noClash clash
    · exact absent a ma same

/-- One round of the loop over the matches. -/
theorem filterMatch_result {state : List Pair × List (String × Nat)} {done : List Pair}
    (fil : Filtered pathtoolsMatch uncompresses state done) (m : Pair) :
    FilterResult pathtoolsMatch excludes includes uncompresses
      (filterMatch pathtoolsMatch quote excludes includes uncompresses state m) done [m] := by
  unfold filterMatch
  rw [multiMatch_ok matchOk, ok_bind, included_ok matchOk, ok_bind]
  by_cases keep : Kept pathtoolsMatch excludes includes m
  · have single : kept pathtoolsMatch excludes includes [m] = [m] := by rw [kept_singleton, if_pos keep]
    rw [if_neg (by simpa using keep), fil.seen m.newName]
    cases found : done.find? (fun b => b.newName = m.newName) with
    | some first =>
      by_cases same : first.index = m.index
      · rw [Option.map_some]
        dsimp only
        rw [if_neg (by simpa using same), pure_eq_ok, filterResult_ok, single]
        exact fil.repeat found same
      · rw [Option.map_some]
        dsimp only
        rw [if_pos same, throw_eq_error, filterResult_error, single]
        have name : first.newName = m.newName := by simpa using List.find?_some found
        exact clash_append_singleton.mpr (.inr ⟨first, List.mem_of_find?_eq_some found, name, same⟩)
    | none =>
      rw [Option.map_none, multiMatch_ok matchOk, ok_bind]
      dsimp only
      rw [pure_eq_ok, filterResult_ok, single]
      exact fil.fresh found
  · rw [if_pos (by simpa using keep), pure_eq_ok, filterResult_ok, kept_singleton, if_neg keep,
      List.append_nil]
    exact fil

/-- The loop over the matches `l`, from the state of the kept matches `done`. -/
theorem foldlM_filterMatch_result (l : List Pair) {state : List Pair × List (String × Nat)}
    {done : List Pair} (fil : Filtered pathtoolsMatch uncompresses state done) :
    FilterResult pathtoolsMatch excludes includes uncompresses
      (l.foldlM (filterMatch pathtoolsMatch quote excludes includes uncompresses) state) done l := by
  induction l generalizing state done with
  | nil => simpa [FilterResult, kept] using fil
  | cons m rest ih =>
    have step : FilterResult pathtoolsMatch excludes includes uncompresses
        (filterMatch pathtoolsMatch quote excludes includes uncompresses state m) done [m] :=
      filterMatch_result matchOk fil m
    rw [List.foldlM_cons]
    cases r : filterMatch pathtoolsMatch quote excludes includes uncompresses state m with
    | error err =>
      rw [r, filterResult_error] at step
      rw [error_bind, filterResult_error, kept_cons, ← List.append_assoc]
      exact step.append _
    | ok state' =>
      rw [r, filterResult_ok] at step
      rw [ok_bind, filterResult_cons]
      exact ih step

/-- The loop over the matches, from its empty state. -/
theorem filterMatches_toOption (l : List Pair) :
    (l.foldlM (filterMatch pathtoolsMatch quote excludes includes uncompresses) ([], [])).toOption.map Prod.fst =
      if Clash (kept pathtoolsMatch excludes includes l) then none
      else some ((firstByKey Pair.newName (kept pathtoolsMatch excludes includes l)).map
        (withUncompress pathtoolsMatch uncompresses)) := by
  have result : FilterResult pathtoolsMatch excludes includes uncompresses
      (l.foldlM (filterMatch pathtoolsMatch quote excludes includes uncompresses) ([], [])) [] l :=
    foldlM_filterMatch_result matchOk l (Filtered.empty uncompresses)
  cases r : l.foldlM (filterMatch pathtoolsMatch quote excludes includes uncompresses) ([], []) with
  | error err =>
    rw [r, filterResult_error, List.nil_append] at result
    rw [toOption_error, Option.map_none, if_pos result]
  | ok state =>
    rw [r, filterResult_ok, List.nil_append] at result
    rw [toOption_ok, Option.map_some, if_neg result.noClash, result.after]

/-- The matches `zip2zip` hands to the loop over them. -/
theorem allMatches_toOption (sortOutput sortJava : Bool) (entries : List (Nat × File)) (args : List String) :
    (if args = [] then
        pure (sortMatches sortOutput sortJava (entries.map fun (index, file) => ⟨index, file, file.name, false⟩))
      else selectMatches pathtoolsMatch isGlob rel quote sortOutput sortJava entries args :
        Except String (List Pair)).toOption =
      if ∃ arg ∈ args, SpecFails pathtoolsMatch isGlob rel quote entries arg then none
      else some (selection pathtoolsMatch isGlob rel quote sortOutput sortJava entries args) := by
  by_cases noArgs : args = []
  · subst noArgs
    simp [selection]
  · rw [if_neg noArgs, selectMatches_toOption matchOk, selection, if_neg noArgs]

omit matchOk in
theorem nodup_names_firstByKey (l : List Pair) :
    (((firstByKey Pair.newName l).map fun m => written (withUncompress pathtoolsMatch uncompresses m)).map
      Written.name).Nodup := by
  rw [List.map_map]
  exact nodup_map_firstByKey l

end Selects

section Zip2zip

variable {pathtoolsMatch : String → String → Except String Bool} {isGlob : String → Bool}
  {rel : String → String → Except String String} {quote : String → String}

/-- `zip2zip` writes the first pair of every name among the kept matches of its filespecs,
and fails exactly on a filespec with a backslash or a match it cannot rename, or on a name
that two different entries produce. Each written pair copies its entry, under its new name,
stored when an uncompress pattern matches that name. -/
theorem zip2zip_selects (matchOk : ∀ pattern name err, pathtoolsMatch pattern name ≠ .error err)
    (files : List File) (sortOutput sortJava : Bool) (args excludes includes uncompresses : List String) :
    (zip2zip pathtoolsMatch isGlob rel quote files sortOutput sortJava args excludes includes uncompresses).toOption =
        (if (∃ arg ∈ args, SpecFails pathtoolsMatch isGlob rel quote (numbered files) arg) ∨
            Clash (kept pathtoolsMatch excludes includes
              (selection pathtoolsMatch isGlob rel quote sortOutput sortJava (numbered files) args)) then none
          else some ((firstByKey Pair.newName (kept pathtoolsMatch excludes includes
              (selection pathtoolsMatch isGlob rel quote sortOutput sortJava (numbered files) args))).map
                fun m => written (withUncompress pathtoolsMatch uncompresses m))) ∧
      ∀ out, zip2zip pathtoolsMatch isGlob rel quote files sortOutput sortJava args excludes includes uncompresses =
        .ok out → (out.map Written.name).Nodup := by
  refine (fun result => ⟨result, fun out ok => ?_⟩) ?_
  · unfold zip2zip
    dsimp only
    rw [toOption_bind, allMatches_toOption matchOk]
    by_cases fails : ∃ arg ∈ args, SpecFails pathtoolsMatch isGlob rel quote (numbered files) arg
    · rw [if_pos fails, if_pos (.inl fails)]
      rfl
    · rw [if_neg fails, Option.bind_some]
      have filtered := @filterMatches_toOption pathtoolsMatch quote matchOk excludes includes uncompresses
        (selection pathtoolsMatch isGlob rel quote sortOutput sortJava (numbered files) args)
      rw [toOption_bind]
      cases r : (selection pathtoolsMatch isGlob rel quote sortOutput sortJava (numbered files) args).foldlM
          (filterMatch pathtoolsMatch quote excludes includes uncompresses) ([], []) with
      | error err =>
        rw [r, toOption_error, Option.map_none] at filtered
        have clash : Clash (kept pathtoolsMatch excludes includes
            (selection pathtoolsMatch isGlob rel quote sortOutput sortJava (numbered files) args)) := by
          by_contra noClash
          rw [if_neg noClash] at filtered
          cases filtered
        rw [toOption_error, Option.bind_none, if_pos (.inr clash)]
      | ok state =>
        rw [r, toOption_ok, Option.map_some] at filtered
        have noClash : ¬Clash (kept pathtoolsMatch excludes includes
            (selection pathtoolsMatch isGlob rel quote sortOutput sortJava (numbered files) args)) := by
          intro clash
          rw [if_pos clash] at filtered
          cases filtered
        rw [if_neg noClash] at filtered
        rw [toOption_ok, Option.bind_some, if_neg (not_or.mpr ⟨fails, noClash⟩), pure_eq_ok, toOption_ok,
          Option.some.inj filtered, List.map_map]
        rfl
  · rw [ok, toOption_ok] at result
    split_ifs at result
    cases result
    exact nodup_names_firstByKey _

theorem zip2zip_selects_rename :
    (∀ pattern name err : String, (.ok (decide (pattern = name)) : Except String Bool) ≠ .error err) ∧
      (zip2zip (fun pattern name => .ok (decide (pattern = name))) (fun _ => false) (fun _ name => .ok name) id
        [⟨"a", 8⟩, ⟨"c", 0⟩] false false ["a:b", "c:b"] ["c"] [] ["b"]).toOption = some [⟨0, "b", store⟩] := by
  have matchOk : ∀ pattern name err : String, (.ok (decide (pattern = name)) : Except String Bool) ≠ .error err :=
    fun _ _ _ => nofun
  refine ⟨matchOk, ?_⟩
  rw [(zip2zip_selects matchOk [⟨"a", 8⟩, ⟨"c", 0⟩] false false ["a:b", "c:b"] ["c"] [] ["b"]).1]
  decide

/-- A filespec with a backslash fails, with no entry at all to clash. -/
theorem zip2zip_backslash :
    zip2zip (fun pattern name => .ok (decide (pattern = name))) (fun _ => false) (fun _ name => .ok name) id
      [] false false ["a\\b"] [] [] [] = .error "\\ characters are not currently supported" := by
  decide

end Zip2zip

end Soong.Zip2zip
