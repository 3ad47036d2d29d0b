import Soong.Go.Filepath
import Soong.Go.Os

namespace Soong.Ui

open Go

/-- The lock file `CreateFileWithRotation` opens next to the log. -/
def lockFileName (filename : String) : String :=
  Filepath.join [Filepath.dir filename, ".lock_" ++ Filepath.base filename]

/-- `newName` in `fileRotation`: the name of slot `cur`. -/
def slotName (baseName ext : String) (cur : Nat) : String := baseName ++ "." ++ toString cur ++ ext

/-- Log rotation in `ui/logger`: `CreateFileWithRotation` moves the log to the first backup
`<base>.1<ext>`, and `fileRotation` first moves that one up, and so on while the next slot is
taken and within `maxCount`. The names the rotation uses are distinct from each other, from the
log and from the lock file, so each call shifts the backups by one slot and drops only the one
that falls past `maxCount`.

`fileRotation`: the file system after its renames, and the error it returns. The error of
the nested call is ignored, but what it renamed stays renamed. -/
def fileRotation (fromName baseName ext : String) (cur : Nat) (max : Int) (fs : Os.Fs) : Os.Fs × Option String :=
  let newName := slotName baseName ext cur
  let fs :=
    if _ : Os.lstat fs newName = true ∧ (cur + 1 : Int) ≤ max then
      (fileRotation newName baseName ext (cur + 1) max fs).1
    else fs
  match Os.rename fs fromName newName with
  | .error err => (fs, some ("Failed to rotate " ++ fromName ++ " to " ++ newName ++ ". " ++ err))
  | .ok fs => (fs, none)
termination_by (max + 1 - cur).toNat
decreasing_by omega

/-- `CreateFileWithRotation`, with the `os.Create` it returns: the file system and the error. With
one caller the `Flock` on the lock file returns at once. -/
def createFileWithRotation (filename : String) (maxCount : Int) (fs : Os.Fs) : Os.Fs × Option String :=
  let fs := Os.openCreate fs (lockFileName filename)
  let rotated :=
    if Os.lstat fs filename then
      let ext := Filepath.ext filename
      let basename := String.ofList (filename.toList.take (filename.length - ext.length))
      fileRotation filename basename ext 1 maxCount fs
    else (fs, none)
  match rotated.2 with
  | some err => (rotated.1, some err)
  | none => (Os.create rotated.1 filename, none)

/-- `CreateFileWithRotation`, then writing `data` to the file and closing it, as a build writes
each log. -/
def writeLog (filename : String) (maxCount : Int) (data : String) (fs : Os.Fs) : Os.Fs × Option String :=
  match createFileWithRotation filename maxCount fs with
  | (fs, some err) => (fs, some err)
  | (fs, none) => (Os.writeNew fs filename data, none)

/-- One `writeLog` for each of `contents` in turn: the file system and each call's error. -/
def writeLogs (filename : String) (maxCount : Int) : List String → Os.Fs → Os.Fs × List (Option String)
  | [], fs => (fs, [])
  | data :: rest, fs =>
    let first := writeLog filename maxCount data fs
    let after := writeLogs filename maxCount rest first.1
    (after.1, first.2 :: after.2)

/-- The `j`-th backup of `filename`, as `CreateFileWithRotation` splits it into base and
extension. -/
def backupName (filename : String) (j : Nat) : String :=
  slotName (String.ofList (filename.toList.take (filename.length - (Filepath.ext filename).length)))
    (Filepath.ext filename) j

theorem toList_slotName (baseName ext : String) (j : Nat) :
    (slotName baseName ext j).toList = baseName.toList ++ '.' :: (Nat.toDigits 10 j ++ ext.toList) := by
  simp [slotName]

theorem slotName_injective {baseName ext : String} {j k : Nat}
    (same : slotName baseName ext j = slotName baseName ext k) : j = k := by
  have chars := congrArg String.toList same
  rw [toList_slotName, toList_slotName, List.append_right_inj, List.cons.injEq] at chars
  have digits := List.append_cancel_right chars.2
  rw [← Nat.ofDigitChars_ten_toDigits (n := j), digits, Nat.ofDigitChars_ten_toDigits]

section Rotation

variable {baseName ext : String} {max : Int}

/-- Slots `cur` and up hold `files`, in order, as far as `max`; the slots past `max` are empty. -/
def SlotsHold (baseName ext : String) (max : Int) (cur : Nat) (files : List String) (fs : Os.Fs) : Prop :=
  ∀ j ≥ cur, fs (slotName baseName ext j) = if (j : Int) ≤ max then files[j - cur]? else none

/-- What `fileRotation` from slot `cur` leaves: `fromName` moved into slot `cur`, each slot's file
one slot up, the one pushed past `max` dropped, and every other name as it was. -/
structure Shifted (baseName ext : String) (max : Int) (cur : Nat) (fromName x : String)
    (files : List String) (fs after : Os.Fs) : Prop where
  moved : after fromName = none
  slots : SlotsHold baseName ext max cur (x :: files) after
  others : ∀ y, y ≠ fromName → (∀ j ≥ cur, y ≠ slotName baseName ext j) → after y = fs y

/-- The last step of `fileRotation`: moving `fromName` into slot `cur`, after the nested call. -/
theorem fileRotation_rename {fromName x : String} {cur : Nat} {fs shifted : Os.Fs}
    (nested : (if _ : Os.lstat fs (slotName baseName ext cur) = true ∧ (cur + 1 : Int) ≤ max then
        (fileRotation (slotName baseName ext cur) baseName ext (cur + 1) max fs).1 else fs) = shifted)
    (moved : shifted fromName = some x) (other : fromName ≠ slotName baseName ext cur) :
    fileRotation fromName baseName ext cur max fs =
      (Function.update (Function.update shifted fromName none) (slotName baseName ext cur) (some x), none) := by
  rw [fileRotation]
  rw [nested, Os.rename_of_ne moved other]

/-- The spec of `fileRotation` from slot `cur`, by recursion along its own recursion: the nested
call shifts slots `cur + 1` and up, then `fromName` moves into slot `cur`. -/
theorem fileRotation_shift (fromName : String) (cur : Nat) (x : String) (files : List String) {fs : Os.Fs}
    (within : (cur : Int) ≤ max) (present : fs fromName = some x)
    (apart : ∀ j ≥ cur, fromName ≠ slotName baseName ext j) (holds : SlotsHold baseName ext max cur files fs) :
    (fileRotation fromName baseName ext cur max fs).2 = none ∧
      Shifted baseName ext max cur fromName x files fs (fileRotation fromName baseName ext cur max fs).1 := by
  have atCur : fs (slotName baseName ext cur) = files[0]? := by
    simpa [within] using holds cur (Nat.le_refl cur)
  -- after the nested call: slots above `cur` hold `files`, and nothing else has changed
  obtain ⟨shifted, nested, above, unchanged⟩ : ∃ shifted,
      (if _ : Os.lstat fs (slotName baseName ext cur) = true ∧ (cur + 1 : Int) ≤ max then
        (fileRotation (slotName baseName ext cur) baseName ext (cur + 1) max fs).1 else fs) = shifted ∧
      SlotsHold baseName ext max (cur + 1) files shifted ∧
      ∀ y, (∀ j ≥ cur, y ≠ slotName baseName ext j) → shifted y = fs y := by
    by_cases taken : Os.lstat fs (slotName baseName ext cur) = true ∧ (cur + 1 : Int) ≤ max
    · obtain ⟨b, rest, rfl⟩ : ∃ b rest, files = b :: rest := by
        cases files with
        | nil => simp [Os.lstat, atCur] at taken
        | cons b rest => exact ⟨b, rest, rfl⟩
      have restHolds : SlotsHold baseName ext max (cur + 1) rest fs := by
        intro j above
        rw [holds j (Nat.le_of_succ_le above), show j - cur = (j - (cur + 1)) + 1 by omega,
          List.getElem?_cons_succ]
      have distinct : ∀ j ≥ cur + 1, slotName baseName ext cur ≠ slotName baseName ext j :=
        fun j above same => by have := slotName_injective same; omega
      obtain ⟨-, inner⟩ := fileRotation_shift (slotName baseName ext cur) (cur + 1) b rest taken.2
        (by simpa using atCur) distinct restHolds
      refine ⟨_, dif_pos taken, inner.slots, fun y apartY => ?_⟩
      exact inner.others y (apartY cur (Nat.le_refl cur)) (fun j above => apartY j (Nat.le_of_succ_le above))
    · refine ⟨fs, dif_neg taken, fun j above => ?_, fun _ _ => rfl⟩
      rw [holds j (Nat.le_of_succ_le above)]
      -- the slot above is empty, or past `max`: either way nothing moves up
      by_cases inside : (j : Int) ≤ max
      · have empty : files = [] := by
          cases files with
          | nil => rfl
          | cons b rest =>
            exfalso
            exact taken ⟨by simp [Os.lstat, atCur], by omega⟩
        simp [empty]
      · simp [inside]
  have stays : shifted fromName = some x := by
    rw [unchanged fromName apart, present]
  rw [fileRotation_rename nested stays (apart cur (Nat.le_refl cur))]
  refine ⟨rfl, ⟨?_, ?_, ?_⟩⟩
  · dsimp only
    rw [Function.update_of_ne (apart cur (Nat.le_refl cur)), Function.update_self]
  · intro j atLeast
    dsimp only
    by_cases same : j = cur
    · subst same
      simp [within]
    · have other : slotName baseName ext j ≠ slotName baseName ext cur :=
        fun names => same (slotName_injective names)
      rw [Function.update_of_ne other, Function.update_of_ne (Ne.symm (apart j atLeast)),
        above j (by omega), show j - cur = (j - (cur + 1)) + 1 by omega, List.getElem?_cons_succ]
  · intro y notFrom apartY
    dsimp only
    rw [Function.update_of_ne (apartY cur (Nat.le_refl cur)), Function.update_of_ne notFrom, unchanged y apartY]
termination_by (max + 1 - cur).toNat
decreasing_by omega

end Rotation

section Names

variable (filename : String)

/-- The names one call touches are distinct: the log is a prefix of each backup's name, and the
lock's final element has one more `_` than the log's `Base`, which has at least as many as the
final element of the log or of any backup. -/
theorem toList_backupName (j : Nat) :
    (backupName filename j).toList = (filename.toList.take (filename.length - (Filepath.ext filename).length)) ++
      '.' :: (Nat.toDigits 10 j ++ (Filepath.ext filename).toList) := by
  rw [backupName, toList_slotName, String.toList_ofList]

theorem take_append_ext :
    filename.toList.take (filename.length - (Filepath.ext filename).length) ++ (Filepath.ext filename).toList =
      filename.toList := by
  obtain ⟨pre, split⟩ := Filepath.ext_suffix filename
  have lengths : filename.length - (Filepath.ext filename).length = pre.length := by
    rw [← String.length_toList, ← String.length_toList, ← split, List.length_append]
    omega
  rw [lengths, ← split, List.take_left]

theorem backupName_ne (j : Nat) : filename ≠ backupName filename j := by
  intro same
  have lengths := congrArg List.length (congrArg String.toList same)
  rw [toList_backupName] at lengths
  conv_lhs at lengths => rw [← take_append_ext filename]
  simp only [List.length_append, List.length_cons] at lengths
  omega

theorem count_finalElem_backupName (j : Nat) :
    (Filepath.finalElem (backupName filename j).toList).count '_' =
      (Filepath.finalElem filename.toList).count '_' := by
  have noSepDigits : '/' ∉ Nat.toDigits 10 j := fun mem => by
    simpa using Nat.isDigit_of_mem_toDigits (by decide) (by decide) mem
  have noSepTail : '/' ∉ '.' :: (Nat.toDigits 10 j ++ (Filepath.ext filename).toList) := by
    simp [noSepDigits, Filepath.noSep_ext]
  rw [toList_backupName, Filepath.finalElem_append _ noSepTail]
  conv_rhs => rw [← take_append_ext filename, Filepath.finalElem_append _ (Filepath.noSep_ext filename)]
  simp [List.count_append, List.count_eq_zero_of_not_mem Nat.underscore_not_in_toDigits]

theorem count_finalElem_lockFileName :
    (Filepath.finalElem (lockFileName filename).toList).count '_' = (Filepath.base filename).toList.count '_' + 1 := by
  by_cases root : Filepath.base filename = "/"
  · have name : ".lock_" ++ Filepath.base filename = String.ofList (".lock_".toList ++ ['/']) := by
      rw [root]
      rfl
    have proper : Filepath.ProperElem ".lock_".toList := ⟨by decide, by decide, by decide, by decide⟩
    rw [lockFileName, name, Filepath.finalElem_join _ proper (.inr rfl), root]
    decide
  · have name : ".lock_" ++ Filepath.base filename = String.ofList ((".lock_" ++ Filepath.base filename).toList ++ []) := by
      rw [List.append_nil, String.ofList_toList]
    have noSep := Filepath.noSep_base root
    have proper : Filepath.ProperElem (".lock_" ++ Filepath.base filename).toList := by
      refine ⟨by simp, by simp, by simp, ?_⟩
      simp only [String.toList_append, List.mem_append, not_or]
      exact ⟨by decide, noSep⟩
    rw [lockFileName, name, Filepath.finalElem_join _ proper (.inl rfl), String.toList_append, List.count_append]
    simp only [Nat.add_comm]
    rfl

theorem lockFileName_ne_filename : lockFileName filename ≠ filename := by
  intro same
  have counts := count_finalElem_lockFileName filename
  have bound := Filepath.count_finalElem_le_base '_' filename
  rw [same] at counts
  omega

theorem lockFileName_ne_backupName (j : Nat) : lockFileName filename ≠ backupName filename j := by
  intro same
  have counts := count_finalElem_lockFileName filename
  have bound := Filepath.count_finalElem_le_base '_' filename
  rw [same, count_finalElem_backupName] at counts
  omega

end Names

/-- The log and its backups after some writes, newest first: the log holds the newest, and
backup `j` the `j`-th before it, as far as `maxCount`. -/
structure Rotated (filename : String) (maxCount : Int) (newestFirst : List String) (fs : Os.Fs) : Prop where
  current : fs filename = newestFirst.head?
  backups : SlotsHold (String.ofList (filename.toList.take (filename.length - (Filepath.ext filename).length)))
    (Filepath.ext filename) maxCount 1 newestFirst.tail fs

section Step

variable {filename : String} {maxCount : Int}

/-- What a call leaves alone: every name but the log, its lock and its backups. -/
def Untouched (filename : String) (fs after : Os.Fs) : Prop :=
  ∀ y, y ≠ filename → y ≠ lockFileName filename → (∀ j ≥ 1, y ≠ backupName filename j) → after y = fs y

theorem Untouched.trans {fs mid after : Os.Fs} (first : Untouched filename fs mid)
    (second : Untouched filename mid after) : Untouched filename fs after :=
  fun y notLog notLock notBackup => (second y notLog notLock notBackup).trans (first y notLog notLock notBackup)

/-- Opening the lock file touches neither the log nor its backups. -/
theorem rotated_openCreate {newestFirst : List String} {fs : Os.Fs} (rotated : Rotated filename maxCount newestFirst fs) :
    Rotated filename maxCount newestFirst (Os.openCreate fs (lockFileName filename)) :=
  ⟨by rw [Os.openCreate_of_ne (Ne.symm (lockFileName_ne_filename filename)), rotated.current],
    fun j atLeast => by
      rw [← rotated.backups j atLeast]
      exact Os.openCreate_of_ne (Ne.symm (lockFileName_ne_backupName filename j))⟩

theorem SlotsHold.update {baseName ext : String} {cur : Nat} {files : List String} {fs : Os.Fs} {y : String}
    (holds : SlotsHold baseName ext maxCount cur files fs) (apart : ∀ j, y ≠ slotName baseName ext j)
    (v : Option String) : SlotsHold baseName ext maxCount cur files (Function.update fs y v) := by
  intro j atLeast
  rw [Function.update_of_ne (Ne.symm (apart j)), holds j atLeast]

/-- With no log yet, nothing is rotated. -/
theorem createFileWithRotation_fresh {fs : Os.Fs} (fresh : fs filename = none) :
    createFileWithRotation filename maxCount fs =
      (Os.create (Os.openCreate fs (lockFileName filename)) filename, none) := by
  have absent : Os.lstat (Os.openCreate fs (lockFileName filename)) filename = false := by
    simp [Os.lstat, Os.openCreate_of_ne (Ne.symm (lockFileName_ne_filename filename)), fresh]
  simp [createFileWithRotation, absent]

/-- With a log, `fileRotation` shifts it and the backups by one slot before the new log. -/
theorem createFileWithRotation_rotate (atLeastOne : 1 ≤ maxCount) {newest : String} {older : List String}
    {fs : Os.Fs} (rotated : Rotated filename maxCount (newest :: older) fs) :
    ∃ shifted, createFileWithRotation filename maxCount fs = (Os.create shifted filename, none) ∧
      Shifted (String.ofList (filename.toList.take (filename.length - (Filepath.ext filename).length)))
        (Filepath.ext filename) maxCount 1 filename newest older (Os.openCreate fs (lockFileName filename)) shifted := by
  have locked := rotated_openCreate rotated
  have present : Os.lstat (Os.openCreate fs (lockFileName filename)) filename = true := by
    simp [Os.lstat, locked.current]
  obtain ⟨ok, shift⟩ := fileRotation_shift filename 1 newest older atLeastOne locked.current
    (fun j _ => backupName_ne filename j) locked.backups
  refine ⟨_, ?_, shift⟩
  simp only [createFileWithRotation, present, if_true, ok]

/-- The step lemma: one write shifts the backups by one slot and puts the new log in front. -/
theorem writeLog_rotated (atLeastOne : 1 ≤ maxCount) {newestFirst : List String} {fs : Os.Fs}
    (rotated : Rotated filename maxCount newestFirst fs) (data : String) :
    (writeLog filename maxCount data fs).2 = none ∧
      Rotated filename maxCount (data :: newestFirst) (writeLog filename maxCount data fs).1 ∧
      Untouched filename fs (writeLog filename maxCount data fs).1 := by
  -- both cases end the same way: the log is created over `after` and written
  have finish : ∀ after : Os.Fs, createFileWithRotation filename maxCount fs = (Os.create after filename, none) →
      SlotsHold (String.ofList (filename.toList.take (filename.length - (Filepath.ext filename).length)))
        (Filepath.ext filename) maxCount 1 newestFirst after → Untouched filename fs after →
      (writeLog filename maxCount data fs).2 = none ∧
        Rotated filename maxCount (data :: newestFirst) (writeLog filename maxCount data fs).1 ∧
        Untouched filename fs (writeLog filename maxCount data fs).1 := by
    intro after created holds untouched
    have written : (writeLog filename maxCount data fs).1 = Function.update after filename (some data) := by
      simp [writeLog, created, Os.writeNew, Os.create, Function.update_idem]
    refine ⟨by simp [writeLog, created], ?_, ?_⟩
    · rw [written]
      exact ⟨by simp, holds.update (fun j => backupName_ne filename j) _⟩
    · intro y notLog notLock notBackup
      rw [written, Function.update_of_ne notLog, untouched y notLog notLock notBackup]
  cases newestFirst with
  | nil =>
    have locked := rotated_openCreate rotated
    refine finish _ (createFileWithRotation_fresh rotated.current) locked.backups ?_
    exact fun y _ notLock _ => Os.openCreate_of_ne notLock
  | cons newest older =>
    obtain ⟨shifted, created, shift⟩ := createFileWithRotation_rotate atLeastOne rotated
    refine finish shifted created shift.slots ?_
    intro y notLog notLock notBackup
    rw [shift.others y notLog notBackup, Os.openCreate_of_ne notLock]

/-- The run lemma: every write succeeds and keeps the newest logs in order. -/
theorem writeLogs_rotated (atLeastOne : 1 ≤ maxCount) (contents : List String) :
    ∀ {newestFirst : List String} {fs : Os.Fs}, Rotated filename maxCount newestFirst fs →
      (∀ err ∈ (writeLogs filename maxCount contents fs).2, err = none) ∧
        Rotated filename maxCount (contents.reverse ++ newestFirst) (writeLogs filename maxCount contents fs).1 ∧
        Untouched filename fs (writeLogs filename maxCount contents fs).1 := by
  induction contents with
  | nil => exact fun rotated => ⟨by simp [writeLogs], rotated, fun _ _ _ _ => rfl⟩
  | cons data rest ih =>
    intro newestFirst fs rotated
    obtain ⟨ok, next, untouched⟩ := writeLog_rotated atLeastOne rotated data
    obtain ⟨oks, final, untouchedRest⟩ := ih next
    refine ⟨?_, ?_, untouched.trans untouchedRest⟩
    · intro err mem
      simp only [writeLogs, List.mem_cons] at mem
      rcases mem with rfl | mem
      · exact ok
      · exact oks err mem
    · simpa [writeLogs] using final

end Step

theorem rotation_keeps_newest (filename : String) {maxCount : Int} (atLeastOne : 1 ≤ maxCount)
    (contents : List String) {fs : Os.Fs} (fresh : fs filename = none)
    (noBackups : ∀ j ≥ 1, fs (backupName filename j) = none) :
    (∀ err ∈ (writeLogs filename maxCount contents fs).2, err = none) ∧
      (writeLogs filename maxCount contents fs).1 filename = contents.getLast? ∧
      (∀ j ≥ 1, (writeLogs filename maxCount contents fs).1 (backupName filename j) =
        if (j : Int) ≤ maxCount then contents.reverse[j]? else none) ∧
      ∀ y, y ≠ filename → y ≠ lockFileName filename → (∀ j ≥ 1, y ≠ backupName filename j) →
        (writeLogs filename maxCount contents fs).1 y = fs y := by
  have start : Rotated filename maxCount [] fs :=
    ⟨fresh, fun j atLeast => by rw [List.tail_nil, List.getElem?_nil, ite_self]; exact noBackups j atLeast⟩
  obtain ⟨ok, final, untouched⟩ := writeLogs_rotated atLeastOne contents start
  rw [List.append_nil] at final
  refine ⟨ok, by rw [final.current, List.head?_reverse], fun j atLeast => ?_, untouched⟩
  rw [backupName, final.backups j atLeast, List.getElem?_tail, Nat.sub_add_cancel atLeast]

theorem rotation_keeps_newest_build_log :
    (1 : Int) ≤ 3 ∧ (fun _ => none : Os.Fs) "build.log" = none ∧
      (∀ j ≥ 1, (fun _ => none : Os.Fs) (backupName "build.log" j) = none) ∧
      ((∀ err ∈ (writeLogs "build.log" 3 ["a", "b", "c", "d", "e"] fun _ => none).2, err = none) ∧
        (writeLogs "build.log" 3 ["a", "b", "c", "d", "e"] fun _ => none).1 "build.log" = some "e" ∧
        (∀ j ≥ 1, (writeLogs "build.log" 3 ["a", "b", "c", "d", "e"] fun _ => none).1 (backupName "build.log" j) =
          if (j : Int) ≤ 3 then ["e", "d", "c", "b", "a"][j]? else none) ∧
        ∀ y, y ≠ "build.log" → y ≠ lockFileName "build.log" → (∀ j ≥ 1, y ≠ backupName "build.log" j) →
          (writeLogs "build.log" 3 ["a", "b", "c", "d", "e"] fun _ => none).1 y = none) :=
  ⟨by decide, rfl, fun _ _ => rfl,
    rotation_keeps_newest "build.log" (by decide) ["a", "b", "c", "d", "e"] rfl fun _ _ => rfl⟩

end Soong.Ui
