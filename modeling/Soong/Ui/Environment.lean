import Soong.Go.Slice
import Soong.Go.Strings

namespace Soong.Ui

open Go

/-- `decodeKeyValue`: the text before the first `=` and the text after it. -/
def decodeKeyValue (str : String) : Option (String × String) :=
  match str.toList.idxOf? '=' with
  | none => none
  | some idx => some (String.ofList (str.toList.take idx), String.ofList (str.toList.drop (idx + 1)))

def indexList (s : String) (list : List String) : Int :=
  match list.idxOf? s with
  | some i => i
  | none => -1

def inList (s : String) (list : List String) : Bool := indexList s list != -1

/-- `key, _, ok := decodeKeyValue(env); ok && test(key)`. -/
def keyMatches (test : String → Bool) (env : String) : Bool :=
  match decodeKeyValue env with
  | some (key, _) => test key
  | none => false

theorem inList_iff {s : String} {list : List String} : inList s list = true ↔ s ∈ list := by
  unfold inList indexList
  cases found : list.idxOf? s with
  | none => simpa using List.idxOf?_eq_none_iff.mp found
  | some i =>
    obtain ⟨bound, at_i, -⟩ := List.idxOf?_eq_some_iff.mp found
    have nonneg : (i : Int) ≠ -1 := by omega
    simpa [nonneg] using at_i ▸ List.getElem_mem bound

theorem inList_eq_decide (s : String) (list : List String) : inList s list = decide (s ∈ list) := by
  rw [Bool.eq_iff_iff, inList_iff, decide_eq_true_iff]

theorem idxOf?_join {key : List Char} (noEq : '=' ∉ key) (value : List Char) :
    (key ++ '=' :: value).idxOf? '=' = some key.length := by
  induction key with
  | nil => simp [List.idxOf?_cons]
  | cons c key ih =>
    have notEq : c ≠ '=' := fun same => noEq (same ▸ List.mem_cons_self)
    simp [List.idxOf?_cons, notEq, ih (fun mem => noEq (List.mem_cons_of_mem c mem))]

/-- The entry `Set` appends decodes to its key and value when the key has no `=`. -/
theorem decodeKeyValue_join {key : String} (noEq : '=' ∉ key.toList) (value : String) :
    decodeKeyValue (key ++ "=" ++ value) = some (key, value) := by
  have text : (key ++ "=" ++ value).toList = key.toList ++ '=' :: value.toList := by simp
  simp [decodeKeyValue, text, idxOf?_join noEq]

/-- The value of the first well-formed entry for each key: the map a list of entries stands
for. -/
def envMap (entries : List String) (key : String) : Option String :=
  (entries.filterMap decodeKeyValue).lookup key

@[simp] theorem envMap_nil (key : String) : envMap [] key = none := rfl

theorem envMap_cons_of_none {env : String} (malformed : decodeKeyValue env = none) (rest : List String) :
    envMap (env :: rest) = envMap rest := by
  funext key
  simp [envMap, malformed]

theorem envMap_cons_of_some {env k v : String} (decoded : decodeKeyValue env = some (k, v))
    (rest : List String) (key : String) :
    envMap (env :: rest) key = if key = k then some v else envMap rest key := by
  simp only [envMap, List.filterMap_cons, decoded, List.lookup_cons]
  by_cases same : key = k
  · simp [same]
  · rw [beq_false_of_ne same, if_neg same]

/-- Dropping entries by their key: an entry that is not well formed counts for nothing, whether
it stays or goes. -/
theorem envMap_filter {keep p : String → Bool}
    (agree : ∀ env k v, decodeKeyValue env = some (k, v) → keep env = p k) (entries : List String)
    (key : String) : envMap (entries.filter keep) key = if p key then envMap entries key else none := by
  induction entries with
  | nil => simp
  | cons env rest ih =>
    cases decoded : decodeKeyValue env with
    | none =>
      rw [envMap_cons_of_none decoded]
      by_cases stays : keep env
      · rw [List.filter_cons_of_pos stays, envMap_cons_of_none decoded, ih]
      · rw [List.filter_cons_of_neg stays, ih]
    | some kv =>
      obtain ⟨k, v⟩ := kv
      have keepEnv := agree env k v decoded
      rw [envMap_cons_of_some decoded]
      by_cases stays : keep env
      · rw [List.filter_cons_of_pos stays, envMap_cons_of_some decoded, ih]
        by_cases same : key = k
        · subst same
          simp [← keepEnv, stays]
        · simp [same]
      · rw [List.filter_cons_of_neg stays, ih]
        by_cases same : key = k
        · subst same
          simp [← keepEnv, stays]
        · simp [same]

theorem envMap_append_join {key : String} (noEq : '=' ∉ key.toList) (value : String)
    (entries : List String) (unset : envMap entries key = none) :
    envMap (entries ++ [key ++ "=" ++ value]) = Function.update (envMap entries) key (some value) := by
  funext k
  simp only [envMap, List.filterMap_append, List.filterMap_cons, List.filterMap_nil,
    decodeKeyValue_join noEq, List.lookup_append, List.lookup_cons, List.lookup_nil]
  by_cases same : k = key
  · subst same
    simp only [envMap] at unset
    simp [unset]
  · rw [beq_false_of_ne same, Function.update_of_ne same]
    simp [envMap]

/-- `build.Environment`: the `key=value` strings a build step runs with, held in a Go slice. Each
operation is a loop over that slice, and `Unset`, `UnsetWithPrefix` and `Allow` compact it in
place. What the list stands for is the map from each key to the value of its first well-formed
entry, and each operation acts on that map as its comment says.

An environment in memory: the heap and the header of `*e`, which views its array. -/
structure Environment where
  heap : Heap String
  slice : Slice
  fits : slice.Fits heap

namespace Environment

def entries (e : Environment) : List String := e.slice.elems e.heap

/-- The map `e` stands for. -/
def toMap (e : Environment) : String → Option String := envMap e.entries

/-- The loop `Unset`, `UnsetWithPrefix` and `Allow` share:
`out := (*e)[:0]; for _, env := range *e { ... out = append(out, env) }; *e = out`. -/
def filterEntries (e : Environment) (keep : String → Bool) : Environment :=
  ⟨(filterInPlace keep e.heap e.slice).1, (filterInPlace keep e.heap e.slice).2, filterInPlace_fits e.fits⟩

def get (e : Environment) (key : String) : Option String :=
  e.entries.findSome? fun env =>
    match decodeKeyValue env with
    | some (k, v) => if k == key then some v else none
    | none => none

def unset (e : Environment) (keys : List String) : Environment :=
  e.filterEntries fun env => !keyMatches (inList · keys) env

def set (e : Environment) (key value : String) : Environment :=
  let e := e.unset [key]
  ⟨(append e.heap e.slice (key ++ "=" ++ value)).1, (append e.heap e.slice (key ++ "=" ++ value)).2,
    append_fits e.fits _⟩

def unsetWithPrefix (e : Environment) (pre : String) : Environment :=
  e.filterEntries fun env => !keyMatches (Strings.hasPrefix · pre) env

/-- Unlike the two filters above, `Allow` keeps the entries that match, so it also drops every
entry that is not well formed. -/
def allow (e : Environment) (keys : List String) : Environment :=
  e.filterEntries (keyMatches (inList · keys))

def copy (e : Environment) : Environment :=
  ⟨(copyOf e.heap e.slice).1, (copyOf e.heap e.slice).2, copyOf_fits e.fits⟩

/-- A freshly allocated environment holding `entries`, as `os.Environ()` returns one. -/
def ofEntries (entries : List String) : Environment :=
  ⟨⟨fun _ => entries, 1⟩, ⟨0, entries.length, entries.length⟩, ⟨Nat.zero_lt_one, Nat.le_refl _, Nat.le_refl _⟩⟩

theorem entries_filterEntries (e : Environment) (keep : String → Bool) :
    (e.filterEntries keep).entries = e.entries.filter keep :=
  filterInPlace_elems e.fits

theorem entries_set (e : Environment) (key value : String) :
    (e.set key value).entries = (e.unset [key]).entries ++ [key ++ "=" ++ value] :=
  append_elems (e.unset [key]).fits _

theorem entries_copy (e : Environment) : e.copy.entries = e.entries := copyOf_elems e.fits

theorem get_eq_toMap (e : Environment) (key : String) : e.get key = e.toMap key := by
  unfold get toMap
  induction e.entries with
  | nil => rfl
  | cons env rest ih =>
    rw [List.findSome?_cons]
    cases decoded : decodeKeyValue env with
    | none =>
      rw [envMap_cons_of_none decoded]
      exact ih
    | some kv =>
      obtain ⟨k, v⟩ := kv
      rw [envMap_cons_of_some decoded]
      by_cases same : key = k
      · subst same
        simp
      · have other : (k == key) = false := beq_false_of_ne (Ne.symm same)
        simp only [other, Bool.false_eq_true, if_false, if_neg same]
        exact ih

/-- A filter that decides by the key of a well-formed entry acts on the map by that key. -/
theorem toMap_filterEntries (e : Environment) {keep p : String → Bool}
    (agree : ∀ env k v, decodeKeyValue env = some (k, v) → keep env = p k) :
    (e.filterEntries keep).toMap = fun key => if p key then e.toMap key else none := by
  funext key
  rw [toMap, entries_filterEntries, envMap_filter agree]
  rfl

theorem toMap_unset (e : Environment) (keys : List String) :
    (e.unset keys).toMap = fun key => if key ∈ keys then none else e.toMap key := by
  have agree : ∀ env k v, decodeKeyValue env = some (k, v) →
      (!keyMatches (inList · keys) env) = !inList k keys := by
    intro env k v decoded
    simp [keyMatches, decoded]
  rw [unset, toMap_filterEntries e agree]
  funext key
  by_cases listed : key ∈ keys <;> simp [listed, inList_eq_decide]

theorem toMap_unsetWithPrefix (e : Environment) (pre : String) :
    (e.unsetWithPrefix pre).toMap = fun key => if pre.toList <+: key.toList then none else e.toMap key := by
  have agree : ∀ env k v, decodeKeyValue env = some (k, v) →
      (!keyMatches (Strings.hasPrefix · pre) env) = !Strings.hasPrefix k pre := by
    intro env k v decoded
    simp [keyMatches, decoded]
  rw [unsetWithPrefix, toMap_filterEntries e agree]
  funext key
  by_cases prefixed : pre.toList <+: key.toList
  · simp [prefixed, Strings.hasPrefix_iff.mpr prefixed]
  · have other : Strings.hasPrefix key pre = false := Bool.eq_false_iff.mpr (mt Strings.hasPrefix_iff.mp prefixed)
    simp [prefixed, other]

theorem toMap_allow (e : Environment) (keys : List String) :
    (e.allow keys).toMap = fun key => if key ∈ keys then e.toMap key else none := by
  have agree : ∀ env k v, decodeKeyValue env = some (k, v) →
      keyMatches (inList · keys) env = inList k keys := by
    intro env k v decoded
    simp [keyMatches, decoded]
  rw [allow, toMap_filterEntries e agree]
  funext key
  by_cases listed : key ∈ keys <;> simp [listed, inList_eq_decide]

theorem toMap_set (e : Environment) {key : String} (noEq : '=' ∉ key.toList) (value : String) :
    (e.set key value).toMap = Function.update e.toMap key (some value) := by
  have removed : envMap (e.unset [key]).entries key = none := by
    change (e.unset [key]).toMap key = none
    simp [toMap_unset]
  have unsetElsewhere : envMap (e.unset [key]).entries = Function.update e.toMap key none := by
    change (e.unset [key]).toMap = _
    rw [toMap_unset]
    funext k
    by_cases same : k = key <;> simp [same]
  rw [toMap, entries_set, envMap_append_join noEq value _ removed, unsetElsewhere,
    Function.update_idem]

end Environment

/-- The operations that change an environment. -/
inductive Op
  | set (key value : String)
  | unset (keys : List String)
  | unsetWithPrefix (pre : String)
  | allow (keys : List String)
  deriving DecidableEq, Repr

/-- `Set` is given a key with no `=`. -/
def Op.WellFormed : Op → Prop
  | .set key _ => '=' ∉ key.toList
  | _ => True

/-- What each operation's comment says it does to the map. -/
def Op.abstract : Op → (String → Option String) → String → Option String
  | .set key value, m => Function.update m key (some value)
  | .unset keys, m => fun k => if k ∈ keys then none else m k
  | .unsetWithPrefix pre, m => fun k => if pre.toList <+: k.toList then none else m k
  | .allow keys, m => fun k => if k ∈ keys then m k else none

namespace Environment

def run (e : Environment) : Op → Environment
  | .set key value => e.set key value
  | .unset keys => e.unset keys
  | .unsetWithPrefix pre => e.unsetWithPrefix pre
  | .allow keys => e.allow keys

def runOps (e : Environment) (ops : List Op) : Environment := ops.foldl run e

theorem toMap_run (e : Environment) {op : Op} (wf : op.WellFormed) :
    (e.run op).toMap = op.abstract e.toMap := by
  cases op with
  | set key value => exact toMap_set e wf value
  | unset keys => exact toMap_unset e keys
  | unsetWithPrefix pre => exact toMap_unsetWithPrefix e pre
  | allow keys => exact toMap_allow e keys

/-- Every run of well-formed operations refines the run of their actions on the map. -/
theorem toMap_runOps (e : Environment) {ops : List Op} (wf : ∀ op ∈ ops, op.WellFormed) :
    (e.runOps ops).toMap = ops.foldl (fun m op => op.abstract m) e.toMap := by
  induction ops generalizing e with
  | nil => rfl
  | cons op ops ih =>
    rw [runOps, List.foldl_cons, ← runOps, ih (e.run op) (fun o mem => wf o (List.mem_cons_of_mem op mem)),
      toMap_run e (wf op List.mem_cons_self)]
    rfl

theorem toMap_runOps_path :
    (∀ op ∈ [Op.set "PATH" "/bin", .unsetWithPrefix "ANDROID_", .allow ["PATH"]], op.WellFormed) ∧
      ((ofEntries ["ANDROID_BUILD_TOP=/src", "PATH=/usr/bin"]).runOps
          [.set "PATH" "/bin", .unsetWithPrefix "ANDROID_", .allow ["PATH"]]).toMap =
        [Op.set "PATH" "/bin", .unsetWithPrefix "ANDROID_", .allow ["PATH"]].foldl (fun m op => op.abstract m)
          (ofEntries ["ANDROID_BUILD_TOP=/src", "PATH=/usr/bin"]).toMap := by
  have wf : ∀ op ∈ [Op.set "PATH" "/bin", .unsetWithPrefix "ANDROID_", .allow ["PATH"]], op.WellFormed := by
    intro op member
    simp only [List.mem_cons, List.not_mem_nil, or_false] at member
    rcases member with rfl | rfl | rfl
    · show '=' ∉ "PATH".toList
      decide
    · trivial
    · trivial
  exact ⟨wf, toMap_runOps _ wf⟩

theorem run_confined (e : Environment) (op : Op) :
    Confined e.heap e.slice (e.run op).heap (e.run op).slice := by
  cases op with
  | set key value =>
    exact (filterInPlace_confined e.fits).trans (append_confined _ _ _)
  | unset keys => exact filterInPlace_confined e.fits
  | unsetWithPrefix pre => exact filterInPlace_confined e.fits
  | allow keys => exact filterInPlace_confined e.fits

theorem runOps_confined (e : Environment) (ops : List Op) :
    Confined e.heap e.slice (e.runOps ops).heap (e.runOps ops).slice := by
  induction ops generalizing e with
  | nil => exact Confined.refl _ _
  | cons op ops ih => exact (e.run_confined op).trans (ih (e.run op))

/-- `Copy` and then any changes to the copy: `e`'s entries are as they were. -/
theorem entries_after_copy (e : Environment) (ops : List Op) :
    e.slice.elems (e.copy.runOps ops).heap = e.entries :=
  Confined.elems_of_copyOf e.fits.allocated (e.copy.runOps_confined ops)

theorem environment_refines (e : Environment) :
    (∀ key value, '=' ∉ key.toList → (e.set key value).toMap = Function.update e.toMap key (some value)) ∧
    (∀ keys, (e.unset keys).toMap = fun k => if k ∈ keys then none else e.toMap k) ∧
    (∀ pre, (e.unsetWithPrefix pre).toMap = fun k => if pre.toList <+: k.toList then none else e.toMap k) ∧
    (∀ keys, (e.allow keys).toMap = fun k => if k ∈ keys then e.toMap k else none) ∧
    (∀ key, e.get key = e.toMap key) ∧
    e.copy.toMap = e.toMap ∧
    ∀ ops, e.slice.elems (e.copy.runOps ops).heap = e.entries := by
  refine ⟨fun key value noEq => e.toMap_set noEq value, e.toMap_unset, e.toMap_unsetWithPrefix,
    e.toMap_allow, e.get_eq_toMap, ?_, e.entries_after_copy⟩
  rw [toMap, toMap, entries_copy]

-- `Set` drops every entry for its key before it appends, and `Allow` drops the malformed ones.
example : ((ofEntries ["A=1", "B", "A=2"]).set "A" "3").entries = ["B", "A=3"] := by decide
example : ((ofEntries ["A=1", "B", "C=2"]).allow ["C"]).entries = ["C=2"] := by decide

theorem environment_refines_path :
    '=' ∉ "PATH".toList ∧
      ((ofEntries ["PATH=/usr/bin", "HOME", "PATH=/sbin"]).set "PATH" "/bin").toMap =
        Function.update (ofEntries ["PATH=/usr/bin", "HOME", "PATH=/sbin"]).toMap "PATH" (some "/bin") :=
  ⟨by decide, (environment_refines _).1 "PATH" "/bin" (by decide)⟩

end Environment

end Soong.Ui
