import Soong.Go.Strings
import Soong.Go.Filepath
import Soong.Go.Runtime

namespace Soong.Android

open Go

/-- A `*Namespace` pointer: the path of the namespace it points to, or `none` for nil.
Namespace paths are unique because `addNamespace` rejects a second namespace at a path. -/
abbrev NamespaceRef := Option String

/-- A `soong_namespace`. `visibleNamespaces` is `none` for the nil slice; the module container
(a `blueprint.SimpleNameInterface`) is a map from module names to modules. -/
structure Namespace (M : Type) where
  path : String
  importedNamespaceNames : List String
  visibleNamespaces : Option (List NamespaceRef)
  moduleContainer : List (String × M)

/-- The state of a `NameResolver`: the namespaces of `sortedNamespaces` in the order they were
added, whether they have been sorted, and the `namespacesByDir` map, newest store first. -/
structure NameResolver (M : Type) where
  items : List (Namespace M)
  sorted : Bool
  namespacesByDir : List (String × NamespaceRef)

variable {M : Type}

/-- The path of `rootNamespace`. -/
def rootPath : String := "."

def newNamespace (path : String) : Namespace M :=
  { path, importedNamespaceNames := [], visibleNamespaces := none, moduleContainer := [] }

def Namespace.setVisible (visible : List NamespaceRef) (ns : Namespace M) : Namespace M :=
  { ns with visibleNamespaces := some visible }

namespace NameResolver

/-- `namespaceAt`: the non-recursive lookup in `namespacesByDir`. -/
def namespaceAt (r : NameResolver M) (path : String) : Option NamespaceRef :=
  r.namespacesByDir.lookup path

def store (r : NameResolver M) (path : String) (ref : NamespaceRef) : NameResolver M :=
  { r with namespacesByDir := (path, ref) :: r.namespacesByDir }

/-- The namespace object a non-nil pointer designates. -/
def deref (r : NameResolver M) (path : String) : Option (Namespace M) :=
  r.items.find? (·.path = path)

/-- `sortedNamespaces.sortedItems`: sorts the namespaces by path on first use. -/
def sortedItems (r : NameResolver M) : NameResolver M × List (Namespace M) :=
  if r.sorted then (r, r.items) else
    let items := r.items.mergeSort (fun a b => decide (a.path.toList ≤ b.path.toList))
    ({ r with items, sorted := true }, items)

/-- `addNamespace`: rejects a path that already has an entry in `namespacesByDir`, whether a
namespace or a memoised directory; `sortedNamespaces.add` panics once the list was sorted. -/
def addNamespace (r : NameResolver M) (ns : Namespace M) : Outcome (NameResolver M) :=
  match r.namespaceAt ns.path with
  | some (some existing) =>
    if existing = ns.path then .error ("namespace " ++ ns.path ++ " already exists")
    else .error "a namespace must be the first module in the file"
  | some none => .panic "nil pointer dereference"
  | none =>
    if r.sorted then
      .panic "It is not supported to call sortedNamespaces.add() after sortedNamespaces.sortedItems()"
    else .ok { (r.store ns.path (some ns.path)) with items := r.items ++ [ns] }

/-- `NewNameResolver`: the root namespace `.` sees only itself. -/
def new : NameResolver M :=
  { items := [{ newNamespace rootPath with visibleNamespaces := some [some rootPath] }],
    sorted := false, namespacesByDir := [(rootPath, some rootPath)] }

/-- `findNamespace` with explicit fuel for the walk up the directory chain: the nearest
enclosing entry of `namespacesByDir`, memoised for every directory passed on the way. -/
def findNamespaceFuel : Nat → NameResolver M → String → NameResolver M × NamespaceRef
  | 0, r, _ => (r, none)
  | fuel + 1, r, path =>
    match r.namespaceAt path with
    | some ns => (r, ns)
    | none =>
      let parentDir := Filepath.dir path
      if parentDir = path then (r, none) else
        let (r', ns) := findNamespaceFuel fuel r parentDir
        (r'.store path ns, ns)

/-- `findNamespace`; the chain of `filepath.Dir` from `path` reaches a fixed point within
`path.length + 1` steps. -/
def findNamespace (r : NameResolver M) (path : String) : NameResolver M × NamespaceRef :=
  findNamespaceFuel (path.length + 2) r path

/-- Replaces the namespace at `path` in the list of namespaces. -/
def update (r : NameResolver M) (path : String) (f : Namespace M → Namespace M) : NameResolver M :=
  { r with items := r.items.map fun ns => if ns.path = path then f ns else ns }

/-- The loop of `FindNamespaceImports` over the imported names, from the slice `visible` built so
far. A missing name stops the loop with an error and the slice as it is; the name `all`, when no
directory `all` is known, instead resets the slice to an empty non-nil one. -/
def resolveImports (r : NameResolver M) (visible : List NamespaceRef) :
    List String → List NamespaceRef × Outcome Unit
  | [] => (visible ++ [some rootPath], .ok ())
  | name :: names =>
    match r.namespaceAt name with
    | some imp => resolveImports r (visible ++ [imp]) names
    | none =>
      if name ≠ "all" then (visible, .error ("namespace " ++ name ++ " does not exist"))
      else ([], .ok ())

/-- `FindNamespaceImports`: records in namespace `path` the namespaces its modules see, itself
first and the root namespace last. -/
def findNamespaceImports (r : NameResolver M) (path : String) : NameResolver M × Outcome Unit :=
  match r.deref path with
  | none => (r, .panic "nil pointer dereference")
  | some ns =>
    let (visible, outcome) := resolveImports r [some path] ns.importedNamespaceNames
    (r.update path (Namespace.setVisible visible), outcome)

/-- `parseFullyQualifiedName`: `//namespace_path:module_name`. -/
def parseFullyQualifiedName (name : String) : Option (String × String) :=
  if !Strings.hasPrefix name "//" then none else
    match Strings.split (Strings.trimPrefix name "//") ':' with
    | [namespaceName, moduleName] => some (namespaceName, moduleName)
    | _ => none

/-- `getNamespacesToSearchForModule`: a nil `visibleNamespaces` means every namespace. -/
def getNamespacesToSearchForModule (r : NameResolver M) (source : Namespace M) :
    NameResolver M × List NamespaceRef :=
  match source.visibleNamespaces with
  | none => let (r', items) := r.sortedItems; (r', items.map (some ·.path))
  | some visible => (r, visible)

/-- The search loop of `ModuleFromName` over the candidate namespaces. -/
def searchCandidates (r : NameResolver M) (name : String) : List NamespaceRef → Outcome (Option M)
  | [] => .ok none
  | none :: _ => .panic "nil pointer dereference"
  | some path :: rest =>
    match r.deref path with
    | none => .panic "nil pointer dereference"
    | some candidate =>
      match candidate.moduleContainer.lookup name with
      | some m => .ok (some m)
      | none => searchCandidates r name rest

/-- `ModuleFromName`: a fully-qualified name is looked up in the namespace `namespacesByDir`
gives for its path; a plain name in the namespaces visible from `source`, in order. -/
def moduleFromName (r : NameResolver M) (name : String) (source : String) :
    NameResolver M × Outcome (Option M) :=
  match parseFullyQualifiedName name with
  | some (nsName, moduleName) =>
    match r.namespaceAt nsName with
    | none => (r, .ok none)
    | some none => (r, .panic "nil pointer dereference")
    | some (some path) =>
      match r.deref path with
      | none => (r, .panic "nil pointer dereference")
      | some ns => (r, .ok (ns.moduleContainer.lookup moduleName))
  | none =>
    match r.deref source with
    | none => (r, .panic "nil pointer dereference")
    | some ns =>
      let (r', candidates) := r.getNamespacesToSearchForModule ns
      (r', searchCandidates r' name candidates)

/-- `addNewNamespaceForModule`: a `soong_namespace` declared in `path` (an `Android.bp` file)
covers the file's directory and imports `imports`. -/
def addNewNamespaceForModule (r : NameResolver M) (path : String) (imports : List String) :
    Outcome (NameResolver M) :=
  if Filepath.base path ≠ "Android.bp" then
    .error "A namespace may only be declared in a file named Android.bp"
  else r.addNamespace { newNamespace (Filepath.dir path) with importedNamespaceNames := imports }

/-- The first of the namespaces at `paths` whose container defines `name`: the search order the
documentation gives. -/
def firstDefining (r : NameResolver M) (name : String) (paths : List String) : Option M :=
  paths.findSome? fun path => (r.deref path).bind (·.moduleContainer.lookup name)

theorem resolveImports_declared (r : NameResolver M) (visible : List NamespaceRef) (names : List String)
    (declared : ∀ name ∈ names, r.namespaceAt name = some (some name)) :
    r.resolveImports visible names = (visible ++ names.map some ++ [some rootPath], .ok ()) := by
  induction names generalizing visible with
  | nil => simp [resolveImports]
  | cons name names ih =>
    rw [resolveImports, declared name List.mem_cons_self]
    simp only [ih (visible ++ [some name]) fun other member => declared other (List.mem_cons_of_mem _ member)]
    simp

theorem find?_update_self {items : List (Namespace M)} {path : String} {ns : Namespace M}
    (found : items.find? (·.path = path) = some ns) (f : Namespace M → Namespace M)
    (keepsPath : (f ns).path = path) :
    (items.map fun x => if x.path = path then f x else x).find? (·.path = path) = some (f ns) := by
  induction items with
  | nil => simp at found
  | cons head items ih =>
    by_cases here : head.path = path
    · rw [List.find?_cons_of_pos (by simpa using here)] at found
      cases found
      rw [List.map_cons, if_pos here, List.find?_cons_of_pos (by simpa using keepsPath)]
    · rw [List.find?_cons_of_neg (by simpa using here)] at found
      rw [List.map_cons, if_neg here, List.find?_cons_of_neg (by simpa using here), ih found]

theorem find?_update_container {items : List (Namespace M)} {path other : String}
    {f : Namespace M → Namespace M} (keepsPath : ∀ ns, (f ns).path = ns.path)
    (keepsModules : ∀ ns, (f ns).moduleContainer = ns.moduleContainer) :
    ((items.map fun x => if x.path = path then f x else x).find? (·.path = other)).map
        (·.moduleContainer) = (items.find? (·.path = other)).map (·.moduleContainer) := by
  induction items with
  | nil => rfl
  | cons head items ih =>
    have samePath : (if head.path = path then f head else head).path = head.path := by
      split <;> simp [keepsPath]
    have sameModules : (if head.path = path then f head else head).moduleContainer =
        head.moduleContainer := by
      split <;> simp [keepsModules]
    by_cases target : head.path = other
    · rw [List.map_cons, List.find?_cons_of_pos (by simpa [samePath] using target),
        List.find?_cons_of_pos (by simpa using target)]
      simp [sameModules]
    · rw [List.map_cons, List.find?_cons_of_neg (by simpa [samePath] using target),
        List.find?_cons_of_neg (by simpa using target), ih]

theorem deref_update_self {r : NameResolver M} {path : String} {ns : Namespace M}
    (found : r.deref path = some ns) (f : Namespace M → Namespace M) (keepsPath : (f ns).path = path) :
    (r.update path f).deref path = some (f ns) :=
  find?_update_self found f keepsPath

theorem deref_update_container {r : NameResolver M} {path other : String} {f : Namespace M → Namespace M}
    (keepsPath : ∀ ns, (f ns).path = ns.path) (keepsModules : ∀ ns, (f ns).moduleContainer = ns.moduleContainer) :
    ((r.update path f).deref other).map (·.moduleContainer) = (r.deref other).map (·.moduleContainer) :=
  find?_update_container keepsPath keepsModules

theorem searchCandidates_declared (r : NameResolver M) (name : String) (paths : List String)
    (exists_ : ∀ path ∈ paths, (r.deref path).isSome) :
    r.searchCandidates name (paths.map some) = .ok (r.firstDefining name paths) := by
  induction paths with
  | nil => simp [searchCandidates, firstDefining]
  | cons path paths ih =>
    obtain ⟨ns, found⟩ := Option.isSome_iff_exists.mp (exists_ path List.mem_cons_self)
    have rest := ih fun other member => exists_ other (List.mem_cons_of_mem _ member)
    cases defined : ns.moduleContainer.lookup name with
    | some m => simp [searchCandidates, firstDefining, found, defined]
    | none =>
      simp only [List.map_cons, searchCandidates, found, defined]
      rw [rest]
      simp [firstDefining, found, defined]

/-- After `FindNamespaceImports` of a namespace whose imports all name declared namespaces, a
plain name is found in the first of the namespace itself, its imports in order, and the root
namespace that defines it. -/
theorem moduleFromName_search_order (r : NameResolver M) (path name : String) (ns : Namespace M)
    (found : r.deref path = some ns)
    (declared : ∀ imp ∈ ns.importedNamespaceNames, r.namespaceAt imp = some (some imp))
    (exists_ : ∀ p ∈ path :: ns.importedNamespaceNames ++ [rootPath], (r.deref p).isSome)
    (plain : parseFullyQualifiedName name = none) :
    (r.findNamespaceImports path).2 = .ok () ∧
      ((r.findNamespaceImports path).1.moduleFromName name path).2 =
        .ok (r.firstDefining name (path :: ns.importedNamespaceNames ++ [rootPath])) := by
  have resolved := resolveImports_declared r [some path] ns.importedNamespaceNames declared
  have atPath : ns.path = path := by simpa using List.find?_some found
  simp only [findNamespaceImports, found, resolved]
  refine ⟨trivial, ?_⟩
  set visible := [some path] ++ ns.importedNamespaceNames.map some ++ [some rootPath]
  set r' := r.update path (Namespace.setVisible visible)
  have found' : r'.deref path = some (ns.setVisible visible) :=
    deref_update_self found (Namespace.setVisible visible) atPath
  have same : ∀ p, (r'.deref p).map (·.moduleContainer) = (r.deref p).map (·.moduleContainer) :=
    fun p => deref_update_container (fun _ => rfl) (fun _ => rfl)
  have exists' : ∀ p ∈ path :: ns.importedNamespaceNames ++ [rootPath], (r'.deref p).isSome := by
    intro p member
    have sameSome := congrArg Option.isSome (same p)
    simp only [Option.isSome_map] at sameSome
    exact sameSome ▸ exists_ p member
  have candidates : visible = (path :: ns.importedNamespaceNames ++ [rootPath]).map some := by
    simp [visible]
  simp only [moduleFromName, plain, found', getNamespacesToSearchForModule, Namespace.setVisible,
    candidates]
  rw [searchCandidates_declared r' name _ exists']
  congr 1
  unfold firstDefining
  congr 1
  funext p
  have agree := same p
  cases hr' : r'.deref p <;> cases hr : r.deref p <;> simp_all

/-- `dir1` imports `dir2`, and only `dir2` defines `a`. -/
theorem moduleFromName_search_order_dir1 :
    ∃ r : NameResolver Nat,
      (new.addNamespace { newNamespace (M := Nat) "dir2" with moduleContainer := [("a", 2)] } >>= fun r =>
        r.addNamespace { newNamespace (M := Nat) "dir1" with importedNamespaceNames := ["dir2"] }) = .ok r ∧
      r.firstDefining "a" ["dir1", "dir2", rootPath] = some 2 ∧
      (r.findNamespaceImports "dir1").2 = .ok () ∧
      ((r.findNamespaceImports "dir1").1.moduleFromName "a" "dir1").2 = .ok (r.firstDefining "a" ["dir1", "dir2", rootPath]) := by
  let dir1 : Namespace Nat := { newNamespace "dir1" with importedNamespaceNames := ["dir2"] }
  let r : NameResolver Nat :=
    ⟨[{ newNamespace (M := Nat) rootPath with visibleNamespaces := some [some rootPath] },
        { newNamespace (M := Nat) "dir2" with moduleContainer := [("a", 2)] }, dir1],
      false, [("dir1", some "dir1"), ("dir2", some "dir2"), (rootPath, some rootPath)]⟩
  refine ⟨r, rfl, by decide, ?_⟩
  exact moduleFromName_search_order r "dir1" "a" dir1 rfl (by decide) (by decide) rfl

end NameResolver

/-- A namespace importing `all` sees no namespace at all, not even itself: `FindNamespaceImports`
leaves an empty non-nil slice, and only a nil slice widens the search to every namespace. -/
theorem moduleFromName_all_import_finds_nothing :
    ∃ r : NameResolver Nat,
      NameResolver.new.addNamespace
        { newNamespace (M := Nat) "dir1" with importedNamespaceNames := ["all"], moduleContainer := [("a", 1)] } =
        .ok r ∧
      (r.findNamespaceImports "dir1").2 = .ok () ∧
      r.firstDefining "a" (r.items.map (·.path)) = some 1 ∧
      ((r.findNamespaceImports "dir1").1.moduleFromName "a" "dir1").2 = .ok none :=
  ⟨_, rfl, by decide, by decide, by decide⟩

end Soong.Android
