import Soong.Android.Paths
import Soong.Lib.Reach

namespace Soong.Cc

open Soong.Android Relation
open scoped List

variable {α : Type} [DecidableEq α]

/-- One iteration of the loops of `orderDeps`: the dep followed by its transitive deps. -/
def appendDep (allTransitiveDeps : α → List α) (orderedAllDeps : List α) (dep : α) : List α :=
  orderedAllDeps ++ [dep] ++ allTransitiveDeps dep

/-- `orderDeps`: every direct dep followed by its transitive deps in link order, static deps
first; only the last copy of each library is kept, and the declared deps are the result
restricted to `directStaticDeps`. -/
def orderDeps (directStaticDeps directSharedDeps : List α) (allTransitiveDeps : α → List α) :
    List α × List α :=
  let orderedAllDeps := directSharedDeps.foldl (appendDep allTransitiveDeps)
    (directStaticDeps.foldl (appendDep allTransitiveDeps) [])
  let orderedAllDeps := lastUniquePaths orderedAllDeps
  (orderedAllDeps, (filterPathList orderedAllDeps directStaticDeps).2)

/-- The fields of a cc `Module` that `orderStaticModuleDeps` reads and writes. -/
structure Module (α : Type) where
  outputFile : α
  depsInLinkOrder : List α
  staticVariant : Option (Module α)

/-- One iteration over the static deps in `orderStaticModuleDeps`. -/
def addStaticDep (acc : (α → List α) × List α) (dep : Module α) : (α → List α) × List α :=
  (Function.update acc.1 dep.outputFile dep.depsInLinkOrder, acc.2 ++ [dep.outputFile])

/-- One iteration over the shared deps: only those with a static variant contribute. -/
def addSharedDep (acc : (α → List α) × List α) (sharedDep : Module α) : (α → List α) × List α :=
  match sharedDep.staticVariant with
  | some staticAnalogue =>
    (Function.update acc.1 staticAnalogue.outputFile staticAnalogue.depsInLinkOrder,
      acc.2 ++ [staticAnalogue.outputFile])
  | none => acc

/-- `orderStaticModuleDeps`: builds the map from each dep's output to its `depsInLinkOrder`,
stores the ordered deps in the module and returns the ordered declared deps. -/
def orderStaticModuleDeps (module : Module α) (staticDeps sharedDeps : List (Module α)) :
    Module α × List α :=
  let (allTransitiveDeps, staticDepFiles) := staticDeps.foldl addStaticDep (fun _ => [], [])
  let (allTransitiveDeps, sharedDepFiles) := sharedDeps.foldl addSharedDep (allTransitiveDeps, [])
  let (depsInLinkOrder, results) := orderDeps staticDepFiles sharedDepFiles allTransitiveDeps
  ({ module with depsInLinkOrder }, results)

omit [DecidableEq α] in
theorem foldl_appendDep (allTransitiveDeps : α → List α) (init deps : List α) :
    deps.foldl (appendDep allTransitiveDeps) init =
      init ++ deps.flatMap (fun dep => dep :: allTransitiveDeps dep) := by
  induction deps generalizing init with
  | nil => simp
  | cons dep deps ih => simp [ih, appendDep]

theorem orderDeps_eq (directStaticDeps directSharedDeps : List α) (allTransitiveDeps : α → List α) :
    orderDeps directStaticDeps directSharedDeps allTransitiveDeps =
      (((directStaticDeps ++ directSharedDeps).flatMap (fun dep => dep :: allTransitiveDeps dep)).dedup,
        (((directStaticDeps ++ directSharedDeps).flatMap
          (fun dep => dep :: allTransitiveDeps dep)).dedup).filter (· ∈ directStaticDeps)) := by
  simp [orderDeps, foldl_appendDep, lastUniquePaths_eq_dedup, filterPathList_eq, List.flatMap_append]

theorem orderDeps_congr {S T : List α} {f g : α → List α} (agree : ∀ p ∈ S ++ T, f p = g p) :
    orderDeps S T f = orderDeps S T g := by
  have blocks : (S ++ T).flatMap (fun dep => dep :: f dep) = (S ++ T).flatMap (fun dep => dep :: g dep) :=
    List.flatMap_congr fun dep member => by rw [agree dep member]
  rw [orderDeps_eq, orderDeps_eq, blocks]

theorem foldl_addStaticDep (link : α → List α) (staticDeps : List (Module α))
    (recorded : ∀ dep ∈ staticDeps, dep.depsInLinkOrder = link dep.outputFile)
    (m : α → List α) (files : List α) :
    ∃ m', staticDeps.foldl addStaticDep (m, files) = (m', files ++ staticDeps.map Module.outputFile) ∧
      ∀ p, m' p = if p ∈ staticDeps.map Module.outputFile then link p else m p := by
  induction staticDeps generalizing m files with
  | nil => exact ⟨m, by simp, fun p => by simp⟩
  | cons dep deps ih =>
    obtain ⟨m', run, values⟩ := ih (fun other member => recorded other (List.mem_cons_of_mem _ member))
      (Function.update m dep.outputFile dep.depsInLinkOrder) (files ++ [dep.outputFile])
    refine ⟨m', by simpa [addStaticDep] using run, fun p => ?_⟩
    rw [values p, recorded dep List.mem_cons_self]
    by_cases here : p = dep.outputFile
    · subst here
      simp
    · simp [here, Function.update_of_ne]

theorem foldl_addSharedDep (link : α → List α) (sharedDeps : List (Module α))
    (recorded : ∀ dep ∈ sharedDeps, ∀ analogue, dep.staticVariant = some analogue →
      analogue.depsInLinkOrder = link analogue.outputFile)
    (m : α → List α) (files : List α) :
    ∃ m', sharedDeps.foldl addSharedDep (m, files) =
        (m', files ++ sharedDeps.filterMap (fun dep => dep.staticVariant.map Module.outputFile)) ∧
      ∀ p, m' p = if p ∈ sharedDeps.filterMap (fun dep => dep.staticVariant.map Module.outputFile)
        then link p else m p := by
  induction sharedDeps generalizing m files with
  | nil => exact ⟨m, by simp, fun p => by simp⟩
  | cons dep deps ih =>
    have rest := fun other member => recorded other (List.mem_cons_of_mem dep member)
    cases variant : dep.staticVariant with
    | none =>
      obtain ⟨m', run, values⟩ := ih rest m files
      exact ⟨m', by simpa [addSharedDep, variant] using run, fun p => by simpa [variant] using values p⟩
    | some analogue =>
      obtain ⟨m', run, values⟩ := ih rest (Function.update m analogue.outputFile analogue.depsInLinkOrder)
        (files ++ [analogue.outputFile])
      refine ⟨m', by simpa [addSharedDep, variant] using run, fun p => ?_⟩
      rw [values p, recorded dep List.mem_cons_self analogue variant]
      by_cases here : p = analogue.outputFile
      · subst here
        simp [variant]
      · simp [here, variant, Function.update_of_ne]

/-- `orderStaticModuleDeps` runs `orderDeps` on the output files of the static deps and of the
static analogues of the shared deps, each with its recorded `depsInLinkOrder`. -/
theorem orderStaticModuleDeps_eq (link : α → List α) (module : Module α)
    (staticDeps sharedDeps : List (Module α))
    (staticRecorded : ∀ dep ∈ staticDeps, dep.depsInLinkOrder = link dep.outputFile)
    (sharedRecorded : ∀ dep ∈ sharedDeps, ∀ analogue, dep.staticVariant = some analogue →
      analogue.depsInLinkOrder = link analogue.outputFile) :
    orderStaticModuleDeps module staticDeps sharedDeps =
      let S := staticDeps.map Module.outputFile
      let T := sharedDeps.filterMap (fun dep => dep.staticVariant.map Module.outputFile)
      ({ module with depsInLinkOrder := (orderDeps S T link).1 }, (orderDeps S T link).2) := by
  obtain ⟨m, staticRun, staticValues⟩ := foldl_addStaticDep link staticDeps staticRecorded (fun _ => []) []
  obtain ⟨m', sharedRun, sharedValues⟩ := foldl_addSharedDep link sharedDeps sharedRecorded m []
  have agree : ∀ p ∈ staticDeps.map Module.outputFile ++
      sharedDeps.filterMap (fun dep => dep.staticVariant.map Module.outputFile), m' p = link p := by
    intro p member
    rw [sharedValues p, staticValues p]
    rcases List.mem_append.mp member with inStatic | inShared
    · by_cases alsoShared : p ∈ sharedDeps.filterMap (fun dep => dep.staticVariant.map Module.outputFile)
      · rw [if_pos alsoShared]
      · rw [if_neg alsoShared, if_pos inStatic]
    · rw [if_pos inShared]
  simp only [orderStaticModuleDeps, staticRun, List.nil_append, sharedRun, orderDeps_congr agree]

/-- The static library graph: each library's direct static deps and the static analogues of
its shared deps. -/
structure LibraryGraph (α : Type) where
  staticDeps : α → List α
  sharedDeps : α → List α

/-- `b` is a direct dep of `a`, static or through the static analogue of a shared dep. -/
def LibraryGraph.Edge (G : LibraryGraph α) (a b : α) : Prop :=
  b ∈ G.staticDeps a ++ G.sharedDeps a

instance (G : LibraryGraph α) (a b : α) : Decidable (G.Edge a b) :=
  inferInstanceAs (Decidable (b ∈ G.staticDeps a ++ G.sharedDeps a))

/-- A link order for the deps `roots`: every library they reach once, and each library before
every library it transitively depends on. -/
structure LinkOrdered (G : LibraryGraph α) (roots order : List α) : Prop where
  nodup : order.Nodup
  mem : ∀ y, y ∈ order ↔ ∃ d ∈ roots, ReflTransGen G.Edge d y
  precedes : ∀ x y, x ∈ order → TransGen G.Edge x y → [x, y] <+ order

omit [DecidableEq α] in
theorem LinkOrdered.mem_iff_transGen {G : LibraryGraph α} {a : α} {order : List α}
    (ordered : LinkOrdered G (G.staticDeps a ++ G.sharedDeps a) order) (y : α) :
    y ∈ order ↔ TransGen G.Edge a y := by
  rw [ordered.mem, TransGen.head'_iff]
  rfl

/-- The block `dep :: link dep` of the concatenation in `orderDeps` has every copy of `x`
followed by `y` when `x` reaches `y`. -/
theorem block_follows {G : LibraryGraph α} {link : α → List α} {d x y : α}
    (ordered : LinkOrdered G (G.staticDeps d ++ G.sharedDeps d) (link d))
    (noCycle : ¬ TransGen G.Edge d d) (path : TransGen G.Edge x y) :
    Follows x y (d :: link d) := by
  by_cases root : x = d
  · subst root
    have fresh : x ∉ link x := fun inside => noCycle ((ordered.mem_iff_transGen x).mp inside)
    exact Follows.head fresh ((ordered.mem_iff_transGen y).mpr path)
  · refine Follows.cons root ?_
    by_cases inside : x ∈ link d
    · exact Follows.of_sublist ordered.nodup (ordered.precedes x y inside path)
    · exact Follows.of_not_mem inside

/-- One level of the bottom-up computation: if the deps' own link orders are right, the order
`orderDeps` computes for them is right. -/
theorem orderDeps_linkOrdered {G : LibraryGraph α} {link : α → List α} {S T : List α}
    (deps : ∀ d ∈ S ++ T, LinkOrdered G (G.staticDeps d ++ G.sharedDeps d) (link d))
    (noCycle : ∀ d ∈ S ++ T, ¬ TransGen G.Edge d d) :
    LinkOrdered G (S ++ T) (orderDeps S T link).1 := by
  rw [orderDeps_eq]
  refine ⟨List.nodup_dedup _, ?_, ?_⟩
  · intro y
    simp only [List.mem_dedup, List.mem_flatMap, List.mem_cons]
    constructor
    · rintro ⟨d, member, same | inside⟩
      · exact ⟨d, member, same ▸ ReflTransGen.refl⟩
      · exact ⟨d, member, ((deps d member).mem_iff_transGen y |>.mp inside).to_reflTransGen⟩
    · rintro ⟨d, member, path⟩
      rcases reflTransGen_iff_eq_or_transGen.mp path with same | far
      · exact ⟨d, member, Or.inl same⟩
      · exact ⟨d, member, Or.inr ((deps d member).mem_iff_transGen y |>.mpr far)⟩
  · intro x y present path
    refine sublist_dedup_of_follows (List.mem_dedup.mp present) (Follows.flatMap ?_)
    intro d member
    exact block_follows (deps d member) (noCycle d member) path

/-- Every library whose `depsInLinkOrder` was computed bottom-up by `orderDeps` from its own
direct deps has a correct link order, by induction over the acyclic graph. -/
theorem link_linkOrdered [Finite α] {G : LibraryGraph α} (acyclic : Acyclic G.Edge)
    {link : α → List α} (bottomUp : ∀ a, link a = (orderDeps (G.staticDeps a) (G.sharedDeps a) link).1)
    (a : α) : LinkOrdered G (G.staticDeps a ++ G.sharedDeps a) (link a) := by
  induction a using acyclic.wellFounded.induction with
  | _ a ih =>
    rw [bottomUp a]
    exact orderDeps_linkOrdered (fun d member => ih d (TransGen.single member))
      (fun d _ => acyclic d)

/-- `orderDeps` orders static libraries for the linker: on a graph whose libraries got their
`depsInLinkOrder` bottom-up from `orderDeps`, the result for direct static deps `S` and static
analogues of shared deps `T` lists every library they reach exactly once, each before the libraries
it depends on, and the declared deps are its subsequence of members of `S`. -/
theorem orderDeps_link_order [Finite α] (G : LibraryGraph α) (acyclic : Acyclic G.Edge)
    (link : α → List α)
    (bottomUp : ∀ a, link a = (orderDeps (G.staticDeps a) (G.sharedDeps a) link).1) (S T : List α) :
    (orderDeps S T link).1.Nodup ∧
      (∀ y, y ∈ (orderDeps S T link).1 ↔ ∃ d ∈ S ++ T, ReflTransGen G.Edge d y) ∧
      (∀ x y, x ∈ (orderDeps S T link).1 → y ∈ (orderDeps S T link).1 → TransGen G.Edge x y →
        [x, y] <+ (orderDeps S T link).1) ∧
      (orderDeps S T link).2 = (orderDeps S T link).1.filter (· ∈ S) := by
  have ordered := orderDeps_linkOrdered (S := S) (T := T)
    (fun d _ => link_linkOrdered acyclic bottomUp d) (fun d _ => acyclic d)
  refine ⟨ordered.nodup, ordered.mem, fun x y present _ path => ordered.precedes x y present path, ?_⟩
  rw [orderDeps_eq]

/-- `orderStaticModuleDeps` itself, on a module whose deps recorded their link orders bottom-up,
stores in the module a link order of its static deps and the static analogues of its shared
deps, and returns its static deps in that order. -/
theorem orderStaticModuleDeps_link_order [Finite α] {G : LibraryGraph α} (acyclic : Acyclic G.Edge)
    {link : α → List α} (bottomUp : ∀ a, link a = (orderDeps (G.staticDeps a) (G.sharedDeps a) link).1)
    (module : Module α) (staticDeps sharedDeps : List (Module α))
    (staticRecorded : ∀ dep ∈ staticDeps, dep.depsInLinkOrder = link dep.outputFile)
    (sharedRecorded : ∀ dep ∈ sharedDeps, ∀ analogue, dep.staticVariant = some analogue →
      analogue.depsInLinkOrder = link analogue.outputFile) :
    LinkOrdered G (staticDeps.map Module.outputFile ++
        sharedDeps.filterMap fun dep => dep.staticVariant.map Module.outputFile)
      (orderStaticModuleDeps module staticDeps sharedDeps).1.depsInLinkOrder ∧
    (orderStaticModuleDeps module staticDeps sharedDeps).2 =
      (orderStaticModuleDeps module staticDeps sharedDeps).1.depsInLinkOrder.filter
        (· ∈ staticDeps.map Module.outputFile) := by
  rw [orderStaticModuleDeps_eq link module staticDeps sharedDeps staticRecorded sharedRecorded]
  dsimp only
  refine ⟨orderDeps_linkOrdered (fun d _ => link_linkOrdered acyclic bottomUp d) (fun d _ => acyclic d), ?_⟩
  rw [orderDeps_eq]

/-- A diamond: `0` links `1` statically and `2` through a shared dep, and both need `3`. -/
def diamond : LibraryGraph (Fin 4) where
  staticDeps
    | 0 => [1]
    | 1 => [3]
    | _ => []
  sharedDeps
    | 0 => [2]
    | 2 => [3]
    | _ => []

/-- The link orders `orderStaticModuleDeps` computes bottom-up on `diamond`. -/
def diamondLink : Fin 4 → List (Fin 4)
  | 0 => [1, 2, 3]
  | 1 => [3]
  | 2 => [3]
  | 3 => []

theorem diamond_acyclic : Acyclic diamond.Edge :=
  Acyclic.of_rank (fun a => 3 - a.val) (by decide)

theorem diamondLink_bottomUp :
    ∀ a, diamondLink a = (orderDeps (diamond.staticDeps a) (diamond.sharedDeps a) diamondLink).1 := by
  decide

theorem orderDeps_link_order_diamond :
    Acyclic diamond.Edge ∧
      (∀ a, diamondLink a = (orderDeps (diamond.staticDeps a) (diamond.sharedDeps a) diamondLink).1) ∧
      (orderDeps [0] [2] diamondLink).1 = [0, 1, 2, 3] ∧
      ((orderDeps [0] [2] diamondLink).1.Nodup ∧
        (∀ y, y ∈ (orderDeps [0] [2] diamondLink).1 ↔ ∃ d ∈ [0, 2], ReflTransGen diamond.Edge d y) ∧
        (∀ x y, x ∈ (orderDeps [0] [2] diamondLink).1 → y ∈ (orderDeps [0] [2] diamondLink).1 →
          TransGen diamond.Edge x y → [x, y] <+ (orderDeps [0] [2] diamondLink).1) ∧
        (orderDeps [0] [2] diamondLink).2 = (orderDeps [0] [2] diamondLink).1.filter (· ∈ [0])) := by
  exact ⟨diamond_acyclic, diamondLink_bottomUp, by decide,
    orderDeps_link_order diamond diamond_acyclic diamondLink diamondLink_bottomUp [0] [2]⟩

/-- Library `0` of `diamond` as a module: its static dep `1`, and a shared library whose static
variant is `2`. -/
def diamondStatic : List (Module (Fin 4)) := [⟨1, [3], none⟩]

def diamondShared : List (Module (Fin 4)) := [⟨2, [], some ⟨2, [3], none⟩⟩]

theorem orderStaticModuleDeps_link_order_diamond :
    Acyclic diamond.Edge ∧
      (∀ a, diamondLink a = (orderDeps (diamond.staticDeps a) (diamond.sharedDeps a) diamondLink).1) ∧
      (orderStaticModuleDeps ⟨0, [], none⟩ diamondStatic diamondShared).1.depsInLinkOrder = [1, 2, 3] ∧
      (LinkOrdered diamond [1, 2] (orderStaticModuleDeps ⟨0, [], none⟩ diamondStatic diamondShared).1.depsInLinkOrder ∧
        (orderStaticModuleDeps ⟨0, [], none⟩ diamondStatic diamondShared).2 =
          (orderStaticModuleDeps ⟨0, [], none⟩ diamondStatic diamondShared).1.depsInLinkOrder.filter (· ∈ [1])) := by
  have sharedRecorded : ∀ dep ∈ diamondShared, ∀ analogue, dep.staticVariant = some analogue →
      analogue.depsInLinkOrder = diamondLink analogue.outputFile := by
    intro dep member analogue variant
    rw [diamondShared, List.mem_singleton] at member
    subst member
    cases variant
    rfl
  exact ⟨diamond_acyclic, diamondLink_bottomUp, by decide,
    orderStaticModuleDeps_link_order diamond_acyclic diamondLink_bottomUp ⟨0, [], none⟩ diamondStatic diamondShared
      (by decide) sharedRecorded⟩

end Soong.Cc
