import Soong.Android.Namespace

namespace Soong.Android

open Go

variable {M : Type}

namespace NameResolver

/-- Whether a namespace is declared at `path`. -/
def declared (r : NameResolver M) (path : String) : Bool :=
  r.items.any (·.path == path)

@[simp] theorem namespaceAt_store (r : NameResolver M) (path : String) (ref : NamespaceRef) (other : String) :
    (r.store path ref).namespaceAt other = if other = path then some ref else r.namespaceAt other := by
  by_cases same : other = path
  · simp [namespaceAt, store, same]
  · simp [namespaceAt, store, same, List.lookup_cons, beq_false_of_ne same]

@[simp] theorem store_items (r : NameResolver M) (path : String) (ref : NamespaceRef) :
    (r.store path ref).items = r.items := rfl

@[simp] theorem store_sorted (r : NameResolver M) (path : String) (ref : NamespaceRef) :
    (r.store path ref).sorted = r.sorted := rfl

theorem declared_eq_true {r : NameResolver M} {path : String} :
    r.declared path = true ↔ ∃ ns ∈ r.items, ns.path = path := by
  simp [declared]

/-- Adding a namespace to the list declares its path. -/
theorem declared_add {r r' : NameResolver M} {ns : Namespace M} (items : r'.items = r.items ++ [ns]) :
    r'.declared = fun path => r.declared path || path == ns.path := by
  funext path
  by_cases same : path = ns.path
  · subst same
    simp [declared, items, List.any_append]
  · simp [declared, items, List.any_append, beq_false_of_ne same, beq_false_of_ne (Ne.symm same)]

theorem declared_of_items {r r' : NameResolver M} (same : r'.items = r.items) : r'.declared = r.declared := by
  unfold declared
  rw [same]

/-- What `addNamespace` does at a directory without an entry, before any sorting: it declares
the namespace and records it at its directory. -/
theorem addNamespace_of_missing {r : NameResolver M} {ns : Namespace M} (missing : r.namespaceAt ns.path = none)
    (unsorted : r.sorted = false) :
    ∃ r', r.addNamespace ns = .ok r' ∧ r'.items = r.items ++ [ns] ∧ r'.sorted = r.sorted ∧
      ∀ path, r'.namespaceAt path = if path = ns.path then some (some ns.path) else r.namespaceAt path := by
  refine ⟨{ r.store ns.path (some ns.path) with items := r.items ++ [ns] }, ?_, rfl, rfl,
    namespaceAt_store r ns.path (some ns.path)⟩
  simp [addNamespace, missing, unsorted]

end NameResolver

/-- The namespace the directory `path` belongs to: the nearest of `path` and the directories
above it that holds a declared namespace, or none. -/
def enclosing (declared : String → Bool) (path : String) : Option String :=
  (Filepath.ancestors path).find? declared

section Enclosing

variable {declared : String → Bool} {path : String}

theorem enclosing_of_declared (here : declared path = true) : enclosing declared path = some path := by
  rw [enclosing, Filepath.ancestors, List.find?_cons_of_pos here]

theorem enclosing_of_dir_eq (undeclared : declared path = false) (fixed : Filepath.dir path = path) :
    enclosing declared path = none := by
  rw [enclosing, Filepath.ancestors_of_dir_eq fixed, List.find?_cons_of_neg (by simp [undeclared])]
  rfl

theorem enclosing_of_dir_ne (undeclared : declared path = false) (moved : Filepath.dir path ≠ path) :
    enclosing declared path = enclosing declared (Filepath.dir path) := by
  rw [enclosing, Filepath.ancestors_of_dir_ne moved, List.find?_cons_of_neg (by simp [undeclared])]
  rfl

/-- Declaring a namespace off the way up from `path` does not change where `path` belongs. -/
theorem enclosing_declare {added : String} (off : added ∉ Filepath.ancestors path) :
    enclosing (fun a => declared a || a == added) path = enclosing declared path := by
  unfold enclosing
  apply List.find?_congr
  intro a above
  have other : a ≠ added := fun same => off (same ▸ above)
  simp [other]

/-- A relative directory climbs to `.`, so with the root namespace declared it belongs somewhere. -/
theorem enclosing_isSome (relative : Filepath.isAbs path = false) (root : declared rootPath = true) :
    (enclosing declared path).isSome := by
  unfold enclosing
  rw [List.find?_isSome]
  exact ⟨rootPath, Filepath.dot_mem_ancestors relative, root⟩

end Enclosing

/-- The calls on a `NameResolver` that read or write `namespacesByDir`. -/
inductive Call (M : Type) where
  | addNamespace (ns : Namespace M)
  | findNamespace (path : String)

namespace NameResolver

/-- One call. An error from `addNamespace` goes back to the module that declared the namespace
and leaves the resolver as it was; a panic stops the build. -/
def call (r : NameResolver M) : Call M → Outcome (NameResolver M)
  | .addNamespace ns =>
    match r.addNamespace ns with
    | .error _ => .ok r
    | outcome => outcome
  | .findNamespace path => .ok (r.findNamespace path).1

def runCalls (r : NameResolver M) : List (Call M) → Outcome (NameResolver M)
  | [] => .ok r
  | c :: cs =>
    match r.call c with
    | .ok r' => r'.runCalls cs
    | .error e => .error e
    | .panic msg => .panic msg

end NameResolver

/-- Each namespace is added before `findNamespace` is called on its directory or on a directory
below it; `queried` are the directories looked up so far. -/
def AddedFirst : List String → List (Call M) → Prop
  | _, [] => True
  | queried, .addNamespace ns :: rest =>
    (∀ d ∈ queried, ns.path ∉ Filepath.ancestors d) ∧ AddedFirst queried rest
  | queried, .findNamespace path :: rest => AddedFirst (path :: queried) rest

/-- The `namespacesByDir` memo of `findNamespace`. A directory belongs to the nearest of itself and
the directories `filepath.Dir` climbs to that holds a declared namespace; `findNamespace` stores
that answer for every directory it passes on the way up, in the same map in which `addNamespace`
records the namespaces. The memo stays sound over any sequence of the two calls in which no
namespace is added below a directory already looked up.

The memo is sound after the directories `queried` were looked up. -/
structure MemoSound (queried : List String) (r : NameResolver M) : Prop where
  /-- Nothing sorted the namespaces, so `addNamespace` does not panic. -/
  unsorted : r.sorted = false
  /-- The root namespace stays declared. -/
  root : r.declared rootPath = true
  /-- Every declared namespace has its own entry. -/
  declaredAt : ∀ ns ∈ r.items, r.namespaceAt ns.path = some (some ns.path)
  /-- Every entry holds the namespace its directory belongs to. -/
  entries : ∀ path ref, r.namespaceAt path = some ref → ref = enclosing r.declared path
  /-- Every other entry lies on the way up from a directory looked up. -/
  passed : ∀ path ref, r.namespaceAt path = some ref →
    r.declared path = true ∨ ∃ d ∈ queried, path ∈ Filepath.ancestors d

namespace MemoSound

variable {queried : List String} {r : NameResolver M}

theorem new_sound : MemoSound [] (NameResolver.new : NameResolver M) where
  unsorted := rfl
  root := by simp [NameResolver.declared, NameResolver.new, newNamespace]
  declaredAt := by
    intro ns mem
    simp only [NameResolver.new, List.mem_singleton] at mem
    subst mem
    rfl
  entries := by
    intro path ref found
    have atRoot : path = rootPath := by
      by_contra other
      simp [NameResolver.namespaceAt, NameResolver.new, List.lookup_cons, beq_false_of_ne other] at found
    subst atRoot
    simp only [NameResolver.namespaceAt, NameResolver.new, List.lookup_cons, beq_self_eq_true,
      Option.some.injEq] at found
    rw [← found, enclosing_of_declared]
    simp [NameResolver.declared, NameResolver.new, newNamespace]
  passed := by
    intro path ref found
    have atRoot : path = rootPath := by
      by_contra other
      simp [NameResolver.namespaceAt, NameResolver.new, List.lookup_cons, beq_false_of_ne other] at found
    subst atRoot
    exact .inl (by simp [NameResolver.declared, NameResolver.new, newNamespace])

/-- The directories looked up only matter through the directories above them. -/
theorem mono {queried' : List String} (sound : MemoSound queried r)
    (covered : ∀ d ∈ queried, ∃ d' ∈ queried', d ∈ Filepath.ancestors d') : MemoSound queried' r where
  unsorted := sound.unsorted
  root := sound.root
  declaredAt := sound.declaredAt
  entries := sound.entries
  passed := by
    intro path ref found
    rcases sound.passed path ref found with here | ⟨d, queriedD, above⟩
    · exact .inl here
    · obtain ⟨d', queriedD', aboveD⟩ := covered d queriedD
      exact .inr ⟨d', queriedD', Filepath.mem_ancestors_trans above aboveD⟩

theorem cons (sound : MemoSound queried r) (path : String) : MemoSound (path :: queried) r :=
  sound.mono fun d queriedD => ⟨d, List.mem_cons_of_mem path queriedD, Filepath.mem_ancestors_self d⟩

theorem entry_of_declared (sound : MemoSound queried r) {path : String} (here : r.declared path = true) :
    r.namespaceAt path = some (some path) := by
  obtain ⟨ns, mem, atPath⟩ := NameResolver.declared_eq_true.mp here
  rw [← atPath]
  exact sound.declaredAt ns mem

/-- A directory without an entry holds no namespace. -/
theorem undeclared (sound : MemoSound queried r) {path : String} (missing : r.namespaceAt path = none) :
    r.declared path = false := by
  rw [Bool.eq_false_iff]
  intro here
  rw [sound.entry_of_declared here] at missing
  cases missing

/-- Storing, for a directory on the way up from one looked up, the namespace it belongs to. -/
theorem store (sound : MemoSound queried r) {path : String} {ref : NamespaceRef}
    (undeclared : r.declared path = false) (belongs : ref = enclosing r.declared path)
    (passing : ∃ d ∈ queried, path ∈ Filepath.ancestors d) : MemoSound queried (r.store path ref) where
  unsorted := sound.unsorted
  root := sound.root
  declaredAt := by
    intro ns mem
    have other : ns.path ≠ path := by
      intro same
      have here : r.declared path = true := NameResolver.declared_eq_true.mpr ⟨ns, mem, same⟩
      rw [undeclared] at here
      cases here
    rw [NameResolver.namespaceAt_store, if_neg other]
    exact sound.declaredAt ns mem
  entries := by
    intro other ref' found
    rw [NameResolver.declared_of_items (NameResolver.store_items r path ref)]
    rw [NameResolver.namespaceAt_store] at found
    split_ifs at found with same
    · cases found
      rw [same]
      exact belongs
    · exact sound.entries other ref' found
  passed := by
    intro other ref' found
    rw [NameResolver.declared_of_items (NameResolver.store_items r path ref)]
    rw [NameResolver.namespaceAt_store] at found
    split_ifs at found with same
    · exact .inr (same ▸ passing)
    · exact sound.passed other ref' found

/-- Adding a namespace that lies above no directory looked up. -/
theorem declare (sound : MemoSound queried r) {ns : Namespace M} {r' : NameResolver M}
    (first : ∀ d ∈ queried, ns.path ∉ Filepath.ancestors d)
    (items : r'.items = r.items ++ [ns]) (sorted : r'.sorted = r.sorted)
    (recorded : ∀ path, r'.namespaceAt path = if path = ns.path then some (some ns.path) else r.namespaceAt path) :
    MemoSound queried r' where
  unsorted := sorted.trans sound.unsorted
  root := by simp [NameResolver.declared_add items, sound.root]
  declaredAt := by
    intro ns' mem
    rw [recorded]
    split_ifs with same
    · rw [same]
    · have old : ns' ∈ r.items := by
        rcases List.mem_append.mp (items ▸ mem) with old | added
        · exact old
        · exact absurd (by rw [List.mem_singleton.mp added]) same
      exact sound.declaredAt ns' old
  entries := by
    intro path ref found
    rw [recorded] at found
    rw [NameResolver.declared_add items]
    split_ifs at found with same
    · cases found
      rw [enclosing_of_declared (by simp [same]), same]
    · rw [sound.entries path ref found]
      -- where `path` belonged is untouched: it holds a namespace, or `ns` is not above it
      rcases sound.passed path ref found with here | ⟨d, queriedD, above⟩
      · rw [enclosing_of_declared here, enclosing_of_declared (by simp [here])]
      · have off : ns.path ∉ Filepath.ancestors path :=
          fun above' => first d queriedD (Filepath.mem_ancestors_trans above' above)
        exact (enclosing_declare off).symm
  passed := by
    intro path ref found
    rw [recorded] at found
    rw [NameResolver.declared_add items]
    split_ifs at found with same
    · exact .inl (by simp [same])
    · rcases sound.passed path ref found with here | passing
      · exact .inl (by simp [here])
      · exact .inr passing

end MemoSound

namespace NameResolver

variable {queried : List String}

/-- `findNamespace` with enough fuel: it returns the namespace `path` belongs to, adds no
namespace, and leaves a sound memo. The induction is on the fuel, one `Dir` step at a time. -/
theorem findNamespaceFuel_sound :
    ∀ {fuel : Nat} {queried : List String} {r : NameResolver M} {path : String},
      MemoSound queried r → Filepath.dirMeasure path < fuel →
      (r.findNamespaceFuel fuel path).2 = enclosing r.declared path ∧
        (r.findNamespaceFuel fuel path).1.items = r.items ∧
        MemoSound (path :: queried) (r.findNamespaceFuel fuel path).1
  | 0, _, _, _, _, enough => absurd enough (Nat.not_lt_zero _)
  | fuel + 1, queried, r, path, sound, enough => by
    rw [findNamespaceFuel]
    cases found : r.namespaceAt path with
    | some ref => exact ⟨sound.entries path ref found, rfl, sound.cons path⟩
    | none =>
      have undeclared := sound.undeclared found
      dsimp only
      by_cases fixed : Filepath.dir path = path
      · rw [if_pos fixed]
        exact ⟨(enclosing_of_dir_eq undeclared fixed).symm, rfl, sound.cons path⟩
      · rw [if_neg fixed]
        have climbs := Filepath.dirMeasure_dir_lt fixed
        obtain ⟨belongs, items, sound'⟩ :=
          @findNamespaceFuel_sound fuel queried r (Filepath.dir path) sound (by omega)
        generalize r.findNamespaceFuel fuel (Filepath.dir path) = climbed at belongs items sound' ⊢
        obtain ⟨r', ref⟩ := climbed
        dsimp only at belongs items sound' ⊢
        -- the parent's answer is the directory's own, and the memo now covers the directory
        have same := declared_of_items items
        refine ⟨(enclosing_of_dir_ne undeclared fixed).symm ▸ belongs, items, ?_⟩
        refine MemoSound.store (sound'.mono ?_) (same ▸ undeclared) ?_
          ⟨path, List.mem_cons_self, Filepath.mem_ancestors_self path⟩
        · intro d queriedD
          rcases List.mem_cons.mp queriedD with rfl | earlier
          · exact ⟨path, List.mem_cons_self, Filepath.mem_ancestors_dir fixed⟩
          · exact ⟨d, List.mem_cons_of_mem path earlier, Filepath.mem_ancestors_self d⟩
        · rw [same, enclosing_of_dir_ne undeclared fixed]
          exact belongs

theorem findNamespace_sound (sound : MemoSound queried r) (path : String) :
    (r.findNamespace path).2 = enclosing r.declared path ∧ (r.findNamespace path).1.items = r.items ∧
      MemoSound (path :: queried) (r.findNamespace path).1 :=
  findNamespaceFuel_sound sound (by have := Filepath.dirMeasure_le path; omega)

/-- `addNamespace` of a namespace above no directory looked up never panics: it adds the
namespace, or fails with an error and changes nothing. -/
theorem call_addNamespace_sound {ns : Namespace M} (sound : MemoSound queried r)
    (first : ∀ d ∈ queried, ns.path ∉ Filepath.ancestors d) :
    ∃ r', r.call (.addNamespace ns) = .ok r' ∧ MemoSound queried r' := by
  simp only [call]
  cases found : r.namespaceAt ns.path with
  | some ref =>
    cases ref with
    | none =>
      -- a nil entry is neither a namespace's nor on the way up from a directory looked up
      rcases sound.passed ns.path none found with here | ⟨d, queriedD, above⟩
      · rw [sound.entry_of_declared here] at found
        cases found
      · exact absurd above (first d queriedD)
    | some existing =>
      simp only [addNamespace, found]
      split_ifs <;> exact ⟨r, rfl, sound⟩
  | none =>
    obtain ⟨r', added, items, sorted, recorded⟩ := addNamespace_of_missing found sound.unsorted
    rw [added]
    exact ⟨r', rfl, sound.declare first items sorted recorded⟩

theorem call_findNamespace_sound (sound : MemoSound queried r) (path : String) :
    ∃ r', r.call (.findNamespace path) = .ok r' ∧ MemoSound (path :: queried) r' :=
  ⟨_, rfl, (findNamespace_sound sound path).2.2⟩

/-- The run lemma: calls in which every namespace comes before the lookups below it never
panic and leave a sound memo. -/
theorem runCalls_sound : ∀ {calls : List (Call M)} {queried : List String} {r : NameResolver M},
    MemoSound queried r → AddedFirst queried calls →
      ∃ r' queried', r.runCalls calls = .ok r' ∧ MemoSound queried' r'
  | [], queried, r, sound, _ => ⟨r, queried, rfl, sound⟩
  | .addNamespace ns :: rest, _, r, sound, ⟨first, ordered⟩ => by
    obtain ⟨r', step, sound'⟩ := call_addNamespace_sound sound first
    obtain ⟨r'', queried', run, sound''⟩ := runCalls_sound sound' ordered
    refine ⟨r'', queried', ?_, sound''⟩
    rw [runCalls, step]
    exact run
  | .findNamespace path :: rest, _, r, sound, ordered => by
    obtain ⟨r', step, sound'⟩ := call_findNamespace_sound sound path
    obtain ⟨r'', queried', run, sound''⟩ := runCalls_sound sound' ordered
    refine ⟨r'', queried', ?_, sound''⟩
    rw [runCalls, step]
    exact run

end NameResolver

/-- After any calls that add each namespace before looking up a directory at or below it, every
entry of `namespacesByDir` holds the namespace its directory belongs to, and `findNamespace`
returns that namespace, which for a relative directory always exists. -/
theorem findNamespace_memo_sound (calls : List (Call M)) (ordered : AddedFirst [] calls) :
    ∃ r, NameResolver.new.runCalls calls = .ok r ∧
      (∀ path ref, r.namespaceAt path = some ref → ref = enclosing r.declared path) ∧
      ∀ path, (r.findNamespace path).2 = enclosing r.declared path ∧
        (Filepath.isAbs path = false → (enclosing r.declared path).isSome) := by
  obtain ⟨r, queried, run, sound⟩ := NameResolver.runCalls_sound MemoSound.new_sound ordered
  refine ⟨r, run, sound.entries, fun path => ⟨(NameResolver.findNamespace_sound sound path).1, ?_⟩⟩
  intro relative
  exact enclosing_isSome relative sound.root

theorem findNamespace_memo_sound_nested :
    AddedFirst []
        ([.findNamespace "a/b", .addNamespace (newNamespace "c"), .findNamespace "c/d"] : List (Call Nat)) ∧
      ∃ r, NameResolver.new.runCalls
          ([.findNamespace "a/b", .addNamespace (newNamespace "c"), .findNamespace "c/d"] : List (Call Nat)) =
          .ok r ∧
        (∀ path ref, r.namespaceAt path = some ref → ref = enclosing r.declared path) ∧
        ∀ path, (r.findNamespace path).2 = enclosing r.declared path ∧
          (Filepath.isAbs path = false → (enclosing r.declared path).isSome) := by
  have up : Filepath.dir "a/b" = "a" := by decide
  have top : Filepath.dir "a" = "." := by decide
  have chain : Filepath.ancestors "a/b" = ["a/b", "a", "."] := by
    rw [Filepath.ancestors_of_dir_ne (by rw [up]; decide), up, Filepath.ancestors_of_dir_ne (by rw [top]; decide),
      top, Filepath.ancestors_of_dir_eq Filepath.dir_dot]
  have ordered : AddedFirst []
      ([.findNamespace "a/b", .addNamespace (newNamespace "c"), .findNamespace "c/d"] : List (Call Nat)) := by
    simp [AddedFirst, chain, newNamespace]
  exact ⟨ordered, findNamespace_memo_sound _ ordered⟩

/-- An absolute directory with nothing declared above it is stored with a nil namespace, not
with the root one. -/
theorem findNamespace_absolute_nil :
    ((NameResolver.new : NameResolver Nat).findNamespace "/x").2 = none ∧
      ((NameResolver.new : NameResolver Nat).findNamespace "/x").1.namespaceAt "/x" = some none := by
  decide

end Soong.Android
