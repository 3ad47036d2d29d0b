import Soong.Android.Paths
import Soong.Lib.SortedKeys

namespace Soong.Android

open Go Go.Filepath Go.Strings

/-- A byte that may stand in a ninja rule name. -/
def ninjaNameByte (b : UInt8) : Bool :=
  (97 ≤ b && b ≤ 122) || (65 ≤ b && b ≤ 90) || (48 ≤ b && b ≤ 57) || b == 95 || b == 45 || b == 46

/-- `ninjaNameEscape`: every byte of the name that may not stand in a ninja rule name becomes `_`. -/
def ninjaNameEscape (s : String) : String :=
  String.ofList (s.toUTF8.toList.map fun b => if ninjaNameByte b then Char.ofNat b.toNat else '_')

/-- `RuleBuilderCommand`: the command line so far and the paths its methods recorded. -/
structure RuleBuilderCommand where
  buf : String
  inputs : List String
  outputs : List String
  depFiles : List String
  tools : List String
  sbox : Bool
  sboxOutDir : String
  deriving DecidableEq, Repr

namespace RuleBuilderCommand

/-- `addInput`: in a sandbox, a path under its output directory is written relative to it and is
no dependency; any other path is recorded as an input and written as it is. -/
def addInput (c : RuleBuilderCommand) (path : String) : RuleBuilderCommand × String :=
  let recorded := ({ c with inputs := c.inputs ++ [path] }, path)
  if c.sbox then
    match maybeRelErr c.sboxOutDir path with
    | .ok (rel, true) => (c, "__SBOX_OUT_DIR__/" ++ rel)
    | _ => recorded
  else recorded

/-- `outputStr`: in a sandbox an output is written relative to its output directory; the errors
are left to `Build`, and a path outside it comes out as the bare prefix. -/
def outputStr (c : RuleBuilderCommand) (path : String) : String :=
  if c.sbox then
    match maybeRelErr c.sboxOutDir path with
    | .ok (rel, _) => "__SBOX_OUT_DIR__/" ++ rel
    | .error _ => "__SBOX_OUT_DIR__/"
  else path

/-- `Text`: the text, after a space unless the command line is still empty. -/
def text (c : RuleBuilderCommand) (text : String) : RuleBuilderCommand :=
  { c with buf := (if c.buf = "" then "" else c.buf ++ " ") ++ text }

def flag (c : RuleBuilderCommand) (flag : String) : RuleBuilderCommand := c.text flag

def flags (c : RuleBuilderCommand) (flags : List String) : RuleBuilderCommand := flags.foldl text c

def flagWithArg (c : RuleBuilderCommand) (flag arg : String) : RuleBuilderCommand := c.text (flag ++ arg)

def flagForEachArg (c : RuleBuilderCommand) (flag : String) (args : List String) : RuleBuilderCommand :=
  args.foldl (fun c arg => c.flagWithArg flag arg) c

def flagWithList (c : RuleBuilderCommand) (flag : String) (list : List String) (sep : String) :
    RuleBuilderCommand :=
  c.text (flag ++ sep.intercalate list)

def tool (c : RuleBuilderCommand) (path : String) : RuleBuilderCommand :=
  { c with tools := c.tools ++ [path] }.text path

/-- `FlagWithInput`; `Input` is it with no flag. -/
def flagWithInput (c : RuleBuilderCommand) (flag path : String) : RuleBuilderCommand :=
  (c.addInput path).1.text (flag ++ (c.addInput path).2)

def input (c : RuleBuilderCommand) (path : String) : RuleBuilderCommand := c.flagWithInput "" path

/-- `Inputs`. -/
def withInputs (c : RuleBuilderCommand) (paths : List String) : RuleBuilderCommand := paths.foldl input c

def implicit (c : RuleBuilderCommand) (path : String) : RuleBuilderCommand := (c.addInput path).1

def implicits (c : RuleBuilderCommand) (paths : List String) : RuleBuilderCommand := paths.foldl implicit c

def flagWithInputList (c : RuleBuilderCommand) (flag : String) (paths : List String) (sep : String) :
    RuleBuilderCommand :=
  let added := paths.foldl (fun (acc : RuleBuilderCommand × List String) path =>
    ((acc.1.addInput path).1, acc.2 ++ [(acc.1.addInput path).2])) (c, [])
  added.1.flagWithList flag added.2 sep

def flagForEachInput (c : RuleBuilderCommand) (flag : String) (paths : List String) : RuleBuilderCommand :=
  paths.foldl (fun c path => c.flagWithInput flag path) c

/-- The outputs and depfiles methods record the path in one list or the other. -/
def addOutput (c : RuleBuilderCommand) (depFile : Bool) (path : String) : RuleBuilderCommand :=
  if depFile then { c with depFiles := c.depFiles ++ [path] } else { c with outputs := c.outputs ++ [path] }

/-- `FlagWithOutput`; `Output` is it with no flag. -/
def flagWithOutput (c : RuleBuilderCommand) (flag path : String) : RuleBuilderCommand :=
  (c.addOutput false path).text (flag ++ c.outputStr path)

def output (c : RuleBuilderCommand) (path : String) : RuleBuilderCommand := c.flagWithOutput "" path

/-- `Outputs`. -/
def withOutputs (c : RuleBuilderCommand) (paths : List String) : RuleBuilderCommand := paths.foldl output c

/-- `FlagWithDepFile`; `DepFile` is it with no flag. -/
def flagWithDepFile (c : RuleBuilderCommand) (flag path : String) : RuleBuilderCommand :=
  (c.addOutput true path).text (flag ++ c.outputStr path)

def depFile (c : RuleBuilderCommand) (path : String) : RuleBuilderCommand := c.flagWithDepFile "" path

def implicitOutput (c : RuleBuilderCommand) (path : String) : RuleBuilderCommand := c.addOutput false path

def implicitOutputs (c : RuleBuilderCommand) (paths : List String) : RuleBuilderCommand :=
  { c with outputs := c.outputs ++ paths }

def implicitDepFile (c : RuleBuilderCommand) (path : String) : RuleBuilderCommand := c.addOutput true path

/-- The methods of `RuleBuilderCommand`, as calls a module makes on a command. -/
inductive Method where
  | text (text : String)
  | flag (flag : String)
  | flags (flags : List String)
  | flagWithArg (flag arg : String)
  | flagForEachArg (flag : String) (args : List String)
  | flagWithList (flag : String) (list : List String) (sep : String)
  | tool (path : String)
  | input (path : String)
  | inputs (paths : List String)
  | implicit (path : String)
  | implicits (paths : List String)
  | output (path : String)
  | outputs (paths : List String)
  | depFile (path : String)
  | implicitOutput (path : String)
  | implicitOutputs (paths : List String)
  | implicitDepFile (path : String)
  | flagWithInput (flag path : String)
  | flagWithInputList (flag : String) (paths : List String) (sep : String)
  | flagForEachInput (flag : String) (paths : List String)
  | flagWithOutput (flag path : String)
  | flagWithDepFile (flag path : String)
  deriving DecidableEq, Repr

def call (c : RuleBuilderCommand) : Method → RuleBuilderCommand
  | .text t => c.text t
  | .flag f => c.flag f
  | .flags fs => c.flags fs
  | .flagWithArg f a => c.flagWithArg f a
  | .flagForEachArg f args => c.flagForEachArg f args
  | .flagWithList f list sep => c.flagWithList f list sep
  | .tool p => c.tool p
  | .input p => c.input p
  | .inputs ps => c.withInputs ps
  | .implicit p => c.implicit p
  | .implicits ps => c.implicits ps
  | .output p => c.output p
  | .outputs ps => c.withOutputs ps
  | .depFile p => c.depFile p
  | .implicitOutput p => c.implicitOutput p
  | .implicitOutputs ps => c.implicitOutputs ps
  | .implicitDepFile p => c.implicitDepFile p
  | .flagWithInput f p => c.flagWithInput f p
  | .flagWithInputList f ps sep => c.flagWithInputList f ps sep
  | .flagForEachInput f ps => c.flagForEachInput f ps
  | .flagWithOutput f p => c.flagWithOutput f p
  | .flagWithDepFile f p => c.flagWithDepFile f p

def calls (c : RuleBuilderCommand) (methods : List Method) : RuleBuilderCommand :=
  methods.foldl call c

/-- Whether `path` lies under `base`, as `maybeRelErr` decides it. -/
def inSandbox (base path : String) : Bool :=
  match maybeRelErr base path with
  | .ok (_, true) => true
  | _ => false

/-- Whether `addInput` records `path` as an input of the command. -/
def records (c : RuleBuilderCommand) (path : String) : Bool :=
  !(c.sbox && inSandbox c.sboxOutDir path)

/-- The paths a method hands `addInput`. -/
def Method.inputPaths : Method → List String
  | .input p | .implicit p | .flagWithInput _ p => [p]
  | .inputs ps | .implicits ps | .flagWithInputList _ ps _ | .flagForEachInput _ ps => ps
  | _ => []

/-- The outputs a method records. -/
def Method.outputPaths : Method → List String
  | .output p | .implicitOutput p | .flagWithOutput _ p => [p]
  | .outputs ps | .implicitOutputs ps => ps
  | _ => []

/-- The depfiles a method records. -/
def Method.depFilePaths : Method → List String
  | .depFile p | .implicitDepFile p | .flagWithDepFile _ p => [p]
  | _ => []

/-- The tools a method records. -/
def Method.toolPaths : Method → List String
  | .tool p => [p]
  | _ => []

/-- `c'` is `c` with the inputs `ins` handed to `addInput`, and the outputs, depfiles and tools
given, recorded; the sandbox is the same. -/
structure Records (c c' : RuleBuilderCommand) (ins outs deps tls : List String) : Prop where
  inputs : c'.inputs = c.inputs ++ ins.filter c.records
  outputs : c'.outputs = c.outputs ++ outs
  depFiles : c'.depFiles = c.depFiles ++ deps
  tools : c'.tools = c.tools ++ tls
  sbox : c'.sbox = c.sbox
  sboxOutDir : c'.sboxOutDir = c.sboxOutDir

section Records

variable {c c' c'' : RuleBuilderCommand}

theorem Records.records (recorded : Records c c' ins outs deps tls) : c'.records = c.records := by
  funext path
  simp [RuleBuilderCommand.records, recorded.sbox, recorded.sboxOutDir]

theorem Records.trans (first : Records c c' ins outs deps tls) (second : Records c' c'' ins' outs' deps' tls') :
    Records c c'' (ins ++ ins') (outs ++ outs') (deps ++ deps') (tls ++ tls') where
  inputs := by rw [second.inputs, first.inputs, first.records, List.filter_append, List.append_assoc]
  outputs := by rw [second.outputs, first.outputs, List.append_assoc]
  depFiles := by rw [second.depFiles, first.depFiles, List.append_assoc]
  tools := by rw [second.tools, first.tools, List.append_assoc]
  sbox := second.sbox.trans first.sbox
  sboxOutDir := second.sboxOutDir.trans first.sboxOutDir

theorem Records.refl (c : RuleBuilderCommand) : Records c c [] [] [] [] :=
  ⟨by simp, by simp, by simp, by simp, rfl, rfl⟩

/-- A loop of one method over a list records what the method records of each element. -/
theorem Records.foldl {β : Type} {f : RuleBuilderCommand → β → RuleBuilderCommand}
    {ins outs deps tls : β → List String}
    (each : ∀ c p, Records c (f c p) (ins p) (outs p) (deps p) (tls p)) (paths : List β) (c : RuleBuilderCommand) :
    Records c (paths.foldl f c) (paths.flatMap ins) (paths.flatMap outs) (paths.flatMap deps) (paths.flatMap tls) := by
  induction paths generalizing c with
  | nil => exact Records.refl c
  | cons p paths ih => simpa using (each c p).trans (ih (f c p))

theorem records_text (c : RuleBuilderCommand) (t : String) : Records c (c.text t) [] [] [] [] :=
  ⟨by simp [text], by simp [text], by simp [text], by simp [text], rfl, rfl⟩

/-- What `addInput` does to the command: it records the path unless the sandbox rewrites it. -/
theorem fst_addInput (c : RuleBuilderCommand) (path : String) :
    (c.addInput path).1 = if c.records path then { c with inputs := c.inputs ++ [path] } else c := by
  unfold addInput RuleBuilderCommand.records inSandbox
  cases c.sbox
  · simp
  · -- the sandbox branch: the match on `maybeRelErr` decides both sides alike
    simp only [Bool.true_and, Bool.not_eq_true', if_true]
    split <;> simp_all

theorem records_addInput (c : RuleBuilderCommand) (path : String) : Records c (c.addInput path).1 [path] [] [] [] := by
  rw [fst_addInput]
  split
  · exact ⟨by simp_all, by simp, by simp, by simp, rfl, rfl⟩
  · exact ⟨by simp_all, by simp, by simp, by simp, rfl, rfl⟩

theorem records_addOutput (c : RuleBuilderCommand) (depFile : Bool) (path : String) :
    Records c (c.addOutput depFile path) [] (if depFile then [] else [path]) (if depFile then [path] else []) [] := by
  cases depFile <;> exact ⟨by simp [addOutput], by simp [addOutput], by simp [addOutput], by simp [addOutput], rfl, rfl⟩

theorem records_flagWithInput (c : RuleBuilderCommand) (flag path : String) :
    Records c (c.flagWithInput flag path) [path] [] [] [] :=
  (records_addInput c path).trans (records_text _ _)

theorem records_flagWithOutput (c : RuleBuilderCommand) (flag path : String) :
    Records c (c.flagWithOutput flag path) [] [path] [] [] :=
  (records_addOutput c false path).trans (records_text _ _)

theorem records_flagWithDepFile (c : RuleBuilderCommand) (flag path : String) :
    Records c (c.flagWithDepFile flag path) [] [] [path] [] :=
  (records_addOutput c true path).trans (records_text _ _)

theorem records_tool (c : RuleBuilderCommand) (path : String) : Records c (c.tool path) [] [] [] [path] :=
  have noted : Records c { c with tools := c.tools ++ [path] } [] [] [] [path] :=
    ⟨by simp, by simp, by simp, rfl, rfl, rfl⟩
  noted.trans (records_text _ _)

/-- The loop of `FlagWithInputList` hands every path to `addInput` in turn. -/
theorem records_addInputs (paths : List String) (acc : RuleBuilderCommand × List String) :
    Records acc.1 (paths.foldl (fun (acc : RuleBuilderCommand × List String) path =>
      ((acc.1.addInput path).1, acc.2 ++ [(acc.1.addInput path).2])) acc).1 paths [] [] [] := by
  induction paths generalizing acc with
  | nil => exact Records.refl _
  | cons p paths ih =>
    simpa using (records_addInput acc.1 p).trans (ih ((acc.1.addInput p).1, acc.2 ++ [(acc.1.addInput p).2]))

/-- Every method records exactly the paths it names as inputs, outputs, depfiles and tools. -/
theorem records_call (c : RuleBuilderCommand) (m : Method) :
    Records c (c.call m) m.inputPaths m.outputPaths m.depFilePaths m.toolPaths := by
  -- the loops record one path or none per element: flatten what `Records.foldl` gives
  have none {β : Type} (l : List β) : l.flatMap (fun _ => ([] : List String)) = [] := by
    simp [List.flatMap_eq_nil_iff]
  cases m with
  | text t | flag t => exact records_text c t
  | flagWithArg f a => exact records_text c (f ++ a)
  | flagWithList f list sep => exact records_text c (f ++ sep.intercalate list)
  | flags fs =>
    have looped := Records.foldl records_text fs c
    simp only [none] at looped
    exact looped
  | flagForEachArg f args =>
    have looped := Records.foldl (fun c arg => records_text c (f ++ arg)) args c
    simp only [none] at looped
    exact looped
  | tool p => exact records_tool c p
  | input p | flagWithInput _ p => exact records_flagWithInput c _ p
  | implicit p => exact records_addInput c p
  | inputs ps =>
    have looped := Records.foldl (fun c p => records_flagWithInput c "" p) ps c
    simp only [none, List.flatMap_singleton'] at looped
    exact looped
  | implicits ps =>
    have looped := Records.foldl records_addInput ps c
    simp only [none, List.flatMap_singleton'] at looped
    exact looped
  | flagForEachInput f ps =>
    have looped := Records.foldl (fun c p => records_flagWithInput c f p) ps c
    simp only [none, List.flatMap_singleton'] at looped
    exact looped
  | flagWithInputList f ps sep =>
    have looped := (records_addInputs ps (c, [])).trans (records_text _ (f ++ sep.intercalate
      (ps.foldl (fun (acc : RuleBuilderCommand × List String) path =>
        ((acc.1.addInput path).1, acc.2 ++ [(acc.1.addInput path).2])) (c, [])).2))
    simp only [List.append_nil] at looped
    exact looped
  | output p | flagWithOutput _ p => exact records_flagWithOutput c _ p
  | outputs ps =>
    have looped := Records.foldl (fun c p => records_flagWithOutput c "" p) ps c
    simp only [none, List.flatMap_singleton'] at looped
    exact looped
  | implicitOutput p => exact records_addOutput c false p
  | implicitOutputs ps =>
    exact ⟨by simp [call, implicitOutputs, Method.inputPaths], rfl, by simp [call, implicitOutputs, Method.depFilePaths],
      by simp [call, implicitOutputs, Method.toolPaths], rfl, rfl⟩
  | depFile p | flagWithDepFile _ p => exact records_flagWithDepFile c _ p
  | implicitDepFile p => exact records_addOutput c true p

theorem records_calls (c : RuleBuilderCommand) (methods : List Method) :
    Records c (c.calls methods) (methods.flatMap Method.inputPaths) (methods.flatMap Method.outputPaths)
      (methods.flatMap Method.depFilePaths) (methods.flatMap Method.toolPaths) :=
  Records.foldl records_call methods c

end Records

section Line

/-- What `Text` does to the command line: a space first unless the line is still empty. -/
def appendText (buf text : String) : String := (if buf = "" then "" else buf ++ " ") ++ text

/-- The texts a method writes on the command line of a command in the sandbox of `c`, in order. -/
def Method.texts (c : RuleBuilderCommand) : Method → List String
  | .text t | .flag t | .tool t => [t]
  | .flags fs => fs
  | .flagWithArg f a => [f ++ a]
  | .flagForEachArg f args => args.map (f ++ ·)
  | .flagWithList f list sep => [f ++ sep.intercalate list]
  | .input p => ["" ++ (c.addInput p).2]
  | .inputs ps => ps.map fun p => "" ++ (c.addInput p).2
  | .flagWithInput f p => [f ++ (c.addInput p).2]
  | .flagWithInputList f ps sep => [f ++ sep.intercalate (ps.map fun p => (c.addInput p).2)]
  | .flagForEachInput f ps => ps.map fun p => f ++ (c.addInput p).2
  | .output p | .depFile p => ["" ++ c.outputStr p]
  | .outputs ps => ps.map fun p => "" ++ c.outputStr p
  | .flagWithOutput f p | .flagWithDepFile f p => [f ++ c.outputStr p]
  | .implicit _ | .implicits _ | .implicitOutput _ | .implicitOutputs _ | .implicitDepFile _ => []

variable {c c' : RuleBuilderCommand}

/-- What `addInput` writes depends on the sandbox alone. -/
theorem snd_addInput_congr (sbox : c'.sbox = c.sbox) (dir : c'.sboxOutDir = c.sboxOutDir) (path : String) :
    (c'.addInput path).2 = (c.addInput path).2 := by
  unfold addInput
  rw [sbox, dir]
  split
  · split <;> rfl
  · rfl

theorem outputStr_congr (sbox : c'.sbox = c.sbox) (dir : c'.sboxOutDir = c.sboxOutDir) (path : String) :
    c'.outputStr path = c.outputStr path := by
  unfold outputStr
  rw [sbox, dir]

theorem buf_addInput (c : RuleBuilderCommand) (path : String) : (c.addInput path).1.buf = c.buf := by
  rw [fst_addInput]
  split <;> rfl

/-- A loop of calls that each write one text, in a sandbox the calls keep, writes the texts in turn. -/
theorem buf_foldl {β : Type} {f : RuleBuilderCommand → β → RuleBuilderCommand} (word : β → String)
    {sbox : Bool} {dir : String}
    (each : ∀ c p, c.sbox = sbox → c.sboxOutDir = dir →
      (f c p).buf = appendText c.buf (word p) ∧ (f c p).sbox = sbox ∧ (f c p).sboxOutDir = dir)
    (paths : List β) (c : RuleBuilderCommand) (inSbox : c.sbox = sbox) (inDir : c.sboxOutDir = dir) :
    (paths.foldl f c).buf = (paths.map word).foldl appendText c.buf := by
  induction paths generalizing c with
  | nil => rfl
  | cons p paths ih =>
    obtain ⟨written, keptSbox, keptDir⟩ := each c p inSbox inDir
    simp only [List.foldl_cons, List.map_cons]
    rw [ih (f c p) keptSbox keptDir, written]

/-- The loop of `FlagWithInputList` writes nothing itself, and collects what `addInput` returns. -/
theorem addInputs_texts (paths : List String) (acc : RuleBuilderCommand × List String) :
    (paths.foldl (fun (acc : RuleBuilderCommand × List String) path =>
      ((acc.1.addInput path).1, acc.2 ++ [(acc.1.addInput path).2])) acc).1.buf = acc.1.buf ∧
    (paths.foldl (fun (acc : RuleBuilderCommand × List String) path =>
      ((acc.1.addInput path).1, acc.2 ++ [(acc.1.addInput path).2])) acc).2 =
      acc.2 ++ paths.map fun path => (acc.1.addInput path).2 := by
  induction paths generalizing acc with
  | nil => simp
  | cons p paths ih =>
    obtain ⟨buf, texts⟩ := ih ((acc.1.addInput p).1, acc.2 ++ [(acc.1.addInput p).2])
    have kept := records_addInput acc.1 p
    refine ⟨by rw [List.foldl_cons, buf, buf_addInput], ?_⟩
    rw [List.foldl_cons, texts, List.map_cons, List.append_assoc, List.singleton_append]
    simp only [snd_addInput_congr kept.sbox kept.sboxOutDir]

theorem buf_addOutput (c : RuleBuilderCommand) (depFile : Bool) (path : String) :
    (c.addOutput depFile path).buf = c.buf := by
  cases depFile <;> rfl

/-- `addInput` alone writes nothing. -/
theorem buf_implicits (c : RuleBuilderCommand) (paths : List String) : (c.implicits paths).buf = c.buf := by
  induction paths generalizing c with
  | nil => rfl
  | cons p paths ih => exact (ih _).trans (buf_addInput c p)

/-- Every method writes its texts on the command line, one `Text` after another. -/
theorem buf_call (c : RuleBuilderCommand) (m : Method) : (c.call m).buf = (m.texts c).foldl appendText c.buf := by
  -- each loop writes one text per element, in the sandbox of `c`
  have inputs (f : String) : ∀ (c' : RuleBuilderCommand) (p : String), c'.sbox = c.sbox →
      c'.sboxOutDir = c.sboxOutDir →
      (c'.flagWithInput f p).buf = appendText c'.buf (f ++ (c.addInput p).2) ∧
      (c'.flagWithInput f p).sbox = c.sbox ∧ (c'.flagWithInput f p).sboxOutDir = c.sboxOutDir := by
    intro c' p sbox dir
    have kept := records_flagWithInput c' f p
    refine ⟨?_, kept.sbox.trans sbox, kept.sboxOutDir.trans dir⟩
    simp only [flagWithInput, text, buf_addInput, snd_addInput_congr sbox dir, appendText]
  have outputs (depFile : Bool) (f : String) : ∀ (c' : RuleBuilderCommand) (p : String), c'.sbox = c.sbox →
      c'.sboxOutDir = c.sboxOutDir →
      ((c'.addOutput depFile p).text (f ++ c'.outputStr p)).buf = appendText c'.buf (f ++ c.outputStr p) ∧
      ((c'.addOutput depFile p).text (f ++ c'.outputStr p)).sbox = c.sbox ∧
      ((c'.addOutput depFile p).text (f ++ c'.outputStr p)).sboxOutDir = c.sboxOutDir := by
    intro c' p sbox dir
    have kept := (records_addOutput c' depFile p).trans (records_text _ (f ++ c'.outputStr p))
    exact ⟨by simp only [text, buf_addOutput, outputStr_congr sbox dir, appendText], kept.sbox.trans sbox,
      kept.sboxOutDir.trans dir⟩
  have texts : ∀ (c' : RuleBuilderCommand) (p : String), c'.sbox = c.sbox → c'.sboxOutDir = c.sboxOutDir →
      (c'.text p).buf = appendText c'.buf p ∧ (c'.text p).sbox = c.sbox ∧ (c'.text p).sboxOutDir = c.sboxOutDir :=
    fun c' p sbox dir => ⟨rfl, sbox, dir⟩
  cases m with
  | text t | flag t | tool t | flagWithArg _ t | flagWithList _ _ t => rfl
  | flags fs =>
    have written := buf_foldl id texts fs c rfl rfl
    rw [List.map_id] at written
    exact written
  | flagForEachArg f args =>
    exact buf_foldl (f ++ ·) (fun c' p sbox dir => texts c' (f ++ p) sbox dir) args c rfl rfl
  | input p => exact (inputs "" c p rfl rfl).1
  | inputs ps => exact buf_foldl _ (inputs "") ps c rfl rfl
  | flagWithInput f p => exact (inputs f c p rfl rfl).1
  | flagForEachInput f ps => exact buf_foldl _ (inputs f) ps c rfl rfl
  | flagWithInputList f ps sep =>
    obtain ⟨buf, written⟩ := addInputs_texts ps (c, [])
    simp only [call, flagWithInputList, flagWithList, text, Method.texts, buf, written, List.nil_append,
      List.foldl_cons, List.foldl_nil, appendText]
  | output p => exact (outputs false "" c p rfl rfl).1
  | outputs ps => exact buf_foldl _ (outputs false "") ps c rfl rfl
  | flagWithOutput f p => exact (outputs false f c p rfl rfl).1
  | depFile p => exact (outputs true "" c p rfl rfl).1
  | flagWithDepFile f p => exact (outputs true f c p rfl rfl).1
  | implicit p => exact buf_addInput c p
  | implicits ps => exact buf_implicits c ps
  | implicitOutput p => exact buf_addOutput c false p
  | implicitDepFile p => exact buf_addOutput c true p
  | implicitOutputs ps => rfl

/-- The texts of a method depend on the sandbox alone. -/
theorem texts_congr (sbox : c'.sbox = c.sbox) (dir : c'.sboxOutDir = c.sboxOutDir) (m : Method) :
    m.texts c' = m.texts c := by
  cases m <;> simp only [Method.texts, snd_addInput_congr sbox dir, outputStr_congr sbox dir]

theorem buf_calls (c : RuleBuilderCommand) (methods : List Method) :
    (c.calls methods).buf = (methods.flatMap (Method.texts c)).foldl appendText c.buf := by
  induction methods generalizing c with
  | nil => rfl
  | cons m methods ih =>
    have kept := records_call c m
    have same : Method.texts (c.call m) = Method.texts c := funext (texts_congr kept.sbox kept.sboxOutDir)
    rw [calls, List.foldl_cons, ← calls, ih, same, buf_call, List.flatMap_cons, List.foldl_append]

/-- On a line already started, each text that is not empty goes after one space. -/
theorem foldl_appendText (texts : List String) (nonempty : ∀ t ∈ texts, t ≠ "") (buf : String) (started : buf ≠ "") :
    texts.foldl appendText buf = " ".intercalate (buf :: texts) := by
  induction texts generalizing buf with
  | nil => simp
  | cons t texts ih =>
    have next : appendText buf t = buf ++ " " ++ t := by simp [appendText, started]
    have written : appendText buf t ≠ "" := by
      rw [next]
      intro empty
      exact nonempty t (by simp) (String.append_eq_empty_iff.mp empty).2
    rw [List.foldl_cons, ih (fun t' mem => nonempty t' (by simp [mem])) _ written, next,
      String.intercalate_cons_append, String.intercalate_cons_cons]

/-- On an empty line, texts that are not empty end up joined by single spaces. -/
theorem foldl_appendText_empty (texts : List String) (nonempty : ∀ t ∈ texts, t ≠ "") :
    texts.foldl appendText "" = " ".intercalate texts := by
  cases texts with
  | nil => rfl
  | cons t texts =>
    have first : appendText "" t = t := by simp [appendText]
    rw [List.foldl_cons, first]
    exact foldl_appendText texts (fun t' mem => nonempty t' (by simp [mem])) t (nonempty t (by simp))

end Line

end RuleBuilderCommand

/-- `RuleBuilder` of `android/rule_builder.go`: commands whose methods write a command line and
record the paths they read and write, and a builder that turns them into one ninja rule. The
rule depends on every path a command reads that no command of the rule writes, declares every
path a command writes but the temporary ones, and in a sandbox depends on nothing inside the
sandbox's output directory. A path is its `String()` here.

`RuleBuilder`. The set of temporaries is the list of paths marked, a map to `true`. -/
structure RuleBuilder where
  commands : List RuleBuilderCommand
  installs : List (String × String)
  temporariesSet : List String
  restat : Bool
  sbox : Bool
  sboxOutDir : String
  missingDeps : List String
  deriving DecidableEq, Repr

namespace RuleBuilder

def new : RuleBuilder := ⟨[], [], [], false, false, "", []⟩

/-- `MissingDeps`. -/
def addMissingDeps (r : RuleBuilder) (missingDeps : List String) : RuleBuilder :=
  { r with missingDeps := r.missingDeps ++ missingDeps }

/-- `Restat`, which panics in a sandbox. -/
def setRestat (r : RuleBuilder) : Except String RuleBuilder :=
  if r.sbox then .error "Restat() is not compatible with Sbox()" else .ok { r with restat := true }

/-- `Sbox`, which panics a second time, after a command, or after `Restat`. -/
def setSbox (r : RuleBuilder) (outputDir : String) : Except String RuleBuilder :=
  if r.sbox then .error "Sbox() may not be called more than once"
  else if r.commands ≠ [] then .error "Sbox() may not be called after Command()"
  else if r.restat then .error "Sbox() is not compatible with Restat()"
  else .ok { r with sbox := true, sboxOutDir := outputDir }

def install (r : RuleBuilder) (source target : String) : RuleBuilder :=
  { r with installs := r.installs ++ [(source, target)] }

/-- The command `Command` starts: nothing on its line yet, in the builder's sandbox. -/
def freshCommand (r : RuleBuilder) : RuleBuilderCommand := ⟨"", [], [], [], [], r.sbox, r.sboxOutDir⟩

/-- `Command`: a new command with the builder's sandbox, appended with the calls made on it. -/
def command (r : RuleBuilder) (methods : List RuleBuilderCommand.Method) : RuleBuilder :=
  { r with commands := r.commands ++ [r.freshCommand.calls methods] }

def temporary (r : RuleBuilder) (path : String) : RuleBuilder :=
  { r with temporariesSet := r.temporariesSet ++ [path] }

/-- `DeleteTemporaryFiles`: a command that removes the temporaries, in sorted order. -/
def deleteTemporaryFiles (r : RuleBuilder) : RuleBuilder :=
  r.command [.text "rm", .flag "-f", .outputs (sortedKeys r.temporariesSet)]

def outputSet (r : RuleBuilder) : List String := r.commands.flatMap (·.outputs)

def depFileSet (r : RuleBuilder) : List String := r.commands.flatMap (·.depFiles)

def toolsSet (r : RuleBuilder) : List String := r.commands.flatMap (·.tools)

/-- `Inputs`: the paths the commands read that none of them writes as an output or a depfile. -/
def inputs (r : RuleBuilder) : List String :=
  sortedKeys ((r.commands.flatMap (·.inputs)).filter fun input =>
    !r.outputSet.contains input && !r.depFileSet.contains input)

/-- `Outputs`: the paths the commands write, but the temporaries. -/
def outputs (r : RuleBuilder) : List String :=
  sortedKeys (r.outputSet.filter fun output => !r.temporariesSet.contains output)

/-- `DepFiles`: every depfile of every command, in order. -/
def depFiles (r : RuleBuilder) : List String := r.commands.flatMap (·.depFiles)

def tools (r : RuleBuilder) : List String := sortedKeys r.toolsSet

/-- `Commands`: the command line of each command. -/
def commandLines (r : RuleBuilder) : List String := r.commands.map (·.buf)

/-- `RuleBuilderInstalls.String`: `from:to` pairs separated by spaces. -/
def installsString (installs : List (String × String)) : String :=
  " ".intercalate (installs.map fun install => install.1 ++ ":" ++ install.2)

/-- The calls a module makes on a builder before `Build`. -/
inductive Step where
  | missingDeps (missingDeps : List String)
  | restat
  | sbox (outputDir : String)
  | install (source target : String)
  | command (methods : List RuleBuilderCommand.Method)
  | temporary (path : String)
  | deleteTemporaryFiles
  deriving DecidableEq, Repr

def step (r : RuleBuilder) : Step → Except String RuleBuilder
  | .missingDeps deps => .ok (r.addMissingDeps deps)
  | .restat => r.setRestat
  | .sbox outputDir => r.setSbox outputDir
  | .install source target => .ok (r.install source target)
  | .command methods => .ok (r.command methods)
  | .temporary path => .ok (r.temporary path)
  | .deleteTemporaryFiles => .ok r.deleteTemporaryFiles

/-- A builder after the calls, or the first panic. -/
def run (r : RuleBuilder) : List Step → Except String RuleBuilder
  | [] => .ok r
  | s :: steps => (r.step s).bind fun r => run r steps

section Sets

open RuleBuilderCommand

variable (r : RuleBuilder) (methods : List Method)

/-- Every input the commands record, in order, with repeats. -/
def inputList : List String := r.commands.flatMap (·.inputs)

@[simp] theorem commands_command : (r.command methods).commands = r.commands ++ [r.freshCommand.calls methods] := rfl

theorem records_command :
    Records r.freshCommand (r.freshCommand.calls methods) (methods.flatMap Method.inputPaths)
      (methods.flatMap Method.outputPaths) (methods.flatMap Method.depFilePaths) (methods.flatMap Method.toolPaths) :=
  records_calls _ _

theorem inputList_command :
    (r.command methods).inputList = r.inputList ++ (methods.flatMap Method.inputPaths).filter r.freshCommand.records := by
  rw [inputList, inputList, commands_command, List.flatMap_append, List.flatMap_singleton,
    (records_command r methods).inputs]
  rfl

theorem outputSet_command : (r.command methods).outputSet = r.outputSet ++ methods.flatMap Method.outputPaths := by
  rw [outputSet, outputSet, commands_command, List.flatMap_append, List.flatMap_singleton,
    (records_command r methods).outputs]
  rfl

theorem depFileSet_command :
    (r.command methods).depFileSet = r.depFileSet ++ methods.flatMap Method.depFilePaths := by
  rw [depFileSet, depFileSet, commands_command, List.flatMap_append, List.flatMap_singleton,
    (records_command r methods).depFiles]
  rfl

theorem depFiles_eq_depFileSet : r.depFiles = r.depFileSet := rfl

/-- `Inputs` is the sorted keys of the recorded inputs that no command writes. -/
theorem inputs_eq : r.inputs = sortedKeys (r.inputList.filter fun input =>
    !r.outputSet.contains input && !r.depFileSet.contains input) := rfl

/-- `Commands` gets one line per `Command`: the texts of its methods, each after one space. -/
theorem commandLines_command (nonempty : ∀ t ∈ methods.flatMap (Method.texts r.freshCommand), t ≠ "") :
    (r.command methods).commandLines =
      r.commandLines ++ [" ".intercalate (methods.flatMap (Method.texts r.freshCommand))] := by
  rw [commandLines, commandLines, commands_command, List.map_append, List.map_singleton, buf_calls,
    ← foldl_appendText_empty _ nonempty]
  rfl

end Sets

theorem commandLines_command_compile :
    (RuleBuilder.new.command [.tool "cc", .flagWithOutput "-o " "out/a.o", .input "a.c"]).commandLines =
      RuleBuilder.new.commandLines ++ [" ".intercalate ([RuleBuilderCommand.Method.tool "cc",
        .flagWithOutput "-o " "out/a.o", .input "a.c"].flatMap (RuleBuilderCommand.Method.texts new.freshCommand))] :=
  commandLines_command new _ (by decide +kernel)

example : (RuleBuilder.new.command [.tool "cc", .flagWithOutput "-o " "out/a.o", .input "a.c"]).commandLines =
    ["cc -o out/a.o a.c"] := by
  decide +kernel

/-- What holds of every builder a module makes: each command is in the builder's sandbox and has
recorded no input that the sandbox rewrites. -/
structure Sound (r : RuleBuilder) : Prop where
  sandboxed : ∀ c ∈ r.commands, c.sbox = r.sbox ∧ c.sboxOutDir = r.sboxOutDir
  recorded : ∀ c ∈ r.commands, ∀ path ∈ c.inputs, c.records path = true

namespace Sound

variable {r r' : RuleBuilder}

theorem new : RuleBuilder.new.Sound :=
  ⟨by simp [RuleBuilder.new], by simp [RuleBuilder.new]⟩

/-- A new command starts in the builder's sandbox and records only what its sandbox keeps. -/
theorem command (sound : r.Sound) (methods : List RuleBuilderCommand.Method) : (r.command methods).Sound := by
  have made := r.records_command methods
  refine ⟨?_, ?_⟩
  · intro c mem
    rcases List.mem_append.mp mem with old | fresh
    · exact sound.sandboxed c old
    · rw [List.mem_singleton.mp fresh, made.sbox, made.sboxOutDir]
      exact ⟨rfl, rfl⟩
  · intro c mem path recorded
    rcases List.mem_append.mp mem with old | fresh
    · exact sound.recorded c old path recorded
    · rw [List.mem_singleton.mp fresh] at recorded ⊢
      rw [made.inputs] at recorded
      rw [made.records]
      simpa [freshCommand] using (List.mem_filter.mp recorded).2

/-- Each call a module makes keeps the builder sound: `Sbox` only succeeds before any command,
and the other calls leave the commands and the sandbox as they were. -/
theorem step (sound : r.Sound) (stepped : r.step s = .ok r') : r'.Sound := by
  have same (r'' : RuleBuilder) (commands : r''.commands = r.commands) (sbox : r''.sbox = r.sbox)
      (sboxOutDir : r''.sboxOutDir = r.sboxOutDir) : r''.Sound := by
    refine ⟨?_, ?_⟩ <;> simp only [commands, sbox, sboxOutDir]
    exacts [sound.sandboxed, sound.recorded]
  cases s with
  | restat =>
    simp only [RuleBuilder.step, setRestat] at stepped
    cases sboxed : r.sbox <;> simp only [sboxed, Bool.false_eq_true, if_false, if_true, reduceCtorEq,
      Except.ok.injEq] at stepped
    subst stepped
    exact same _ rfl sboxed.symm rfl
  | sbox outputDir =>
    simp only [RuleBuilder.step, setSbox] at stepped
    -- the three guards of `Sbox`: not twice, no command yet, not restat
    cases sboxed : r.sbox <;> cases restat : r.restat <;> by_cases empty : r.commands = [] <;>
      simp only [sboxed, restat, empty, Bool.false_eq_true, if_false, if_true, reduceCtorEq, ne_eq, not_true,
        not_false_eq_true, Except.ok.injEq] at stepped
    subst stepped
    exact ⟨by simp, by simp⟩
  | missingDeps deps =>
    cases stepped
    exact same _ rfl rfl rfl
  | install source target =>
    cases stepped
    exact same _ rfl rfl rfl
  | temporary path =>
    cases stepped
    exact same _ rfl rfl rfl
  | command methods =>
    cases stepped
    exact sound.command methods
  | deleteTemporaryFiles =>
    cases stepped
    exact sound.command _

theorem run (sound : r.Sound) (steps : List Step) (ran : r.run steps = .ok r') : r'.Sound := by
  induction steps generalizing r with
  | nil =>
    cases ran
    exact sound
  | cons s steps ih =>
    obtain ⟨next, stepped, rest⟩ := bind_eq_ok ran
    exact ih (sound.step stepped) rest

/-- In a sandboxed builder, `Inputs` lists no path under the sandbox's output directory: the
commands wrote those as `__SBOX_OUT_DIR__` paths instead of recording them. -/
theorem inputs_outside (sound : r.Sound) (sboxed : r.sbox = true) :
    ∀ path ∈ r.inputs, RuleBuilderCommand.inSandbox r.sboxOutDir path = false := by
  intro path listed
  rw [inputs_eq, mem_sortedKeys, List.mem_filter, inputList, List.mem_flatMap] at listed
  obtain ⟨⟨c, command, recorded⟩, -⟩ := listed
  have kept := sound.recorded c command path recorded
  obtain ⟨sbox, dir⟩ := sound.sandboxed c command
  simpa [RuleBuilderCommand.records, sbox, dir, sboxed] using kept

end Sound

/-- What `Build` reads of its context and of Blueprint: the path of a host tool, the output
directory, and Blueprint's escapes for ninja and for the shell. -/
structure BuildContext where
  hostToolPath : String → String
  outDir : String
  ninjaEscape : String → String
  shellEscape : String → String

/-- The errors `Rel` reports to the context. -/
inductive PathError where
  | rel (err : String)
  | notUnder (target base : String)
  deriving DecidableEq, Repr

/-- `Rel`: the path relative to `base`, or the empty path and the errors it reports. -/
def relPath (base target : String) : String × List PathError :=
  match maybeRelErr base target with
  | .ok (rel, true) => (rel, [])
  | .ok (_, false) => ("", [.notUnder target base])
  | .error err => ("", [.rel err, .notUnder target base])

/-- The `RuleParams` of the rule. -/
structure RuleParams where
  command : String
  commandDeps : List String
  restat : Bool
  deriving DecidableEq, Repr

/-- The `BuildParams` `Build` hands its context. -/
inductive Built where
  /-- The `ErrorRule` of a builder with missing dependencies. -/
  | missing (outputs : List String) (description : String) (error : String)
  /-- The rule; its depfile, if any, is in gcc's format. -/
  | rule (name : String) (params : RuleParams) (implicits : List String) (output : String)
      (implicitOutputs : List String) (depfile : Option String) (description : String)
  deriving DecidableEq, Repr

/-- `depFileMergerCmd`: a command that merges the depfiles into the first with `dep_fixer`. -/
def depFileMergerCmd (r : RuleBuilder) (ctx : BuildContext) (depFiles : List String) : RuleBuilder :=
  r.command [.tool (ctx.hostToolPath "dep_fixer"), .inputs depFiles]

/-- The `sbox` command of `Build` that runs the rule's command line in the sandbox, and the errors
`Rel` reports for the outputs. -/
def sboxCommand (r : RuleBuilder) (ctx : BuildContext) (commandString : String) (depFile : Option String)
    (outputs : List String) : RuleBuilderCommand × List PathError :=
  let sboxOutputs := outputs.map fun output => "__SBOX_OUT_DIR__/" ++ (relPath r.sboxOutDir output).1
  let escaped := ctx.shellEscape commandString
  let quoted := if hasPrefix escaped "'" then escaped else "'" ++ escaped ++ "'"
  let methods : List RuleBuilderCommand.Method :=
    [.tool (ctx.hostToolPath "sbox"), .flag "-c", .text quoted, .flag "--sandbox-path",
      .text (join [ctx.outDir, ".temp"]), .flag "--output-root", .text r.sboxOutDir] ++
    depFile.elim [] (fun depFile => [.flag "--depfile-out", .text depFile]) ++ [.flags sboxOutputs]
  ((⟨"", [], [], [], [], false, ""⟩ : RuleBuilderCommand).calls methods,
    outputs.flatMap fun output => (relPath r.sboxOutDir output).2)

/-- `Build`: the builder after it (with the depfile merger, if one was added), the path errors it
reported, and the rule it built, if any; or the panic of a rule without outputs. -/
def build (r : RuleBuilder) (ctx : BuildContext) (name desc : String) :
    Except String (RuleBuilder × List PathError × Option Built) :=
  let name := ninjaNameEscape name
  if r.missingDeps ≠ [] then
    .ok (r, [], some (.missing r.outputs desc ("missing dependencies: " ++ ", ".intercalate r.missingDeps)))
  else
    let depFiles := r.depFiles
    -- more than one depfile: a command merges them into the first
    let merged := if 1 < depFiles.length then r.depFileMergerCmd ctx depFiles else r
    let depErrors := if 1 < depFiles.length ∧ merged.sbox then
      (depFiles.drop 1).flatMap fun path => (relPath merged.sboxOutDir path).2 else []
    let tools := merged.tools
    let commands := merged.commandLines
    let outputs := merged.outputs
    if commands = [] then .ok (merged, depErrors, none)
    else match outputs with
      | [] => .error "No outputs specified from any Commands"
      | output :: implicitOutputs =>
        let commandString := " && ".intercalate (commands.map ctx.ninjaEscape)
        let sboxed := merged.sboxCommand ctx commandString depFiles.head? outputs
        let command := if merged.sbox then sboxed.1.buf else commandString
        let commandDeps := if merged.sbox then tools ++ sboxed.1.tools else tools
        let errors := if merged.sbox then depErrors ++ sboxed.2 else depErrors
        .ok (merged, errors, some (.rule name ⟨command, commandDeps, merged.restat⟩ merged.inputs output
          implicitOutputs depFiles.head? desc))

section Build

open RuleBuilderCommand

variable (r : RuleBuilder) (ctx : BuildContext) (depFiles : List String)

theorem outputSet_depFileMergerCmd : (r.depFileMergerCmd ctx depFiles).outputSet = r.outputSet := by
  simp [depFileMergerCmd, outputSet_command, Method.outputPaths]

theorem depFileSet_depFileMergerCmd : (r.depFileMergerCmd ctx depFiles).depFileSet = r.depFileSet := by
  simp [depFileMergerCmd, depFileSet_command, Method.depFilePaths]

theorem inputList_depFileMergerCmd :
    (r.depFileMergerCmd ctx depFiles).inputList = r.inputList ++ depFiles.filter r.freshCommand.records := by
  simp [depFileMergerCmd, inputList_command, Method.inputPaths]

/-- The merger writes no output the rule declares. -/
theorem outputs_depFileMergerCmd : (r.depFileMergerCmd ctx depFiles).outputs = r.outputs := by
  rw [outputs, outputs, outputSet_depFileMergerCmd]
  rfl

/-- The merger reads only depfiles, which `Inputs` leaves out: it adds no input to the rule. -/
theorem inputs_depFileMergerCmd : (r.depFileMergerCmd ctx r.depFiles).inputs = r.inputs := by
  rw [inputs_eq, inputs_eq, inputList_depFileMergerCmd, outputSet_depFileMergerCmd, depFileSet_depFileMergerCmd]
  apply sortedKeys_congr
  intro path
  simp only [List.mem_filter, List.mem_append, depFiles_eq_depFileSet, Bool.and_eq_true, Bool.not_eq_true',
    List.contains_eq_mem, decide_eq_false_iff_not]
  constructor
  · rintro ⟨inputs | ⟨depFile, _⟩, notOutput, notDepFile⟩
    · exact ⟨inputs, notOutput, notDepFile⟩
    · exact absurd depFile notDepFile
  · rintro ⟨inputs, notOutput, notDepFile⟩
    exact ⟨.inl inputs, notOutput, notDepFile⟩

section Merged

variable (merge : Prop) [Decidable merge]

/-- The builder `Build` goes on with declares what the builder declared, merger or not. -/
theorem inputs_merged : (if merge then r.depFileMergerCmd ctx r.depFiles else r).inputs = r.inputs := by
  split
  · exact r.inputs_depFileMergerCmd ctx
  · rfl

theorem outputs_merged : (if merge then r.depFileMergerCmd ctx r.depFiles else r).outputs = r.outputs := by
  split
  · exact r.outputs_depFileMergerCmd ctx r.depFiles
  · rfl

theorem restat_merged : (if merge then r.depFileMergerCmd ctx r.depFiles else r).restat = r.restat := by
  split <;> rfl

/-- The merger is only added to a builder with a depfile, hence with a command. -/
theorem commands_merged (merges : merge → 1 < r.depFiles.length) :
    (if merge then r.depFileMergerCmd ctx r.depFiles else r).commands = [] ↔ r.commands = [] := by
  split
  · rename_i merging
    have depFile : r.depFiles ≠ [] := List.ne_nil_of_length_pos (by have := merges merging; omega)
    have command : r.commands ≠ [] := by
      intro none
      simp [depFiles, none] at depFile
    simp [depFileMergerCmd, command]
  · rfl

end Merged

/-- What `Build` can do: report missing dependencies, build no rule for a builder without
commands, panic for one without outputs, or hand its context a rule that declares the builder's
own inputs, outputs and first depfile (the merger command it may add changes none of them). -/
theorem build_inversion {name desc : String} {result : Except String (RuleBuilder × List PathError × Option Built)}
    (built : r.build ctx name desc = result) :
    (r.missingDeps ≠ [] ∧
      result = .ok (r, [], some (.missing r.outputs desc ("missing dependencies: " ++ ", ".intercalate r.missingDeps)))) ∨
    (r.missingDeps = [] ∧ r.commands = [] ∧ ∃ merged errors, result = .ok (merged, errors, none)) ∨
    (r.missingDeps = [] ∧ r.commands ≠ [] ∧ r.outputs = [] ∧ result = .error "No outputs specified from any Commands") ∨
    (r.missingDeps = [] ∧ r.commands ≠ [] ∧ ∃ output implicitOutputs merged errors params,
      r.outputs = output :: implicitOutputs ∧ params.restat = r.restat ∧
      result = .ok (merged, errors, some (.rule (ninjaNameEscape name) params r.inputs output implicitOutputs
        r.depFiles.head? desc))) := by
  unfold build at built
  by_cases missing : r.missingDeps ≠ []
  · rw [if_pos missing] at built
    exact .inl ⟨missing, built.symm⟩
  have noMissing : r.missingDeps = [] := not_not.mp missing
  rw [if_neg missing] at built
  dsimp only at built
  simp only [outputs_merged, inputs_merged, restat_merged] at built
  have commands := r.commands_merged ctx (1 < r.depFiles.length) id
  generalize (if 1 < r.depFiles.length then r.depFileMergerCmd ctx r.depFiles else r) = merged at commands built
  by_cases noCommand : r.commands = []
  · have noLine : merged.commandLines = [] := by simp [commandLines, commands.mpr noCommand]
    rw [if_pos noLine] at built
    exact .inr (.inl ⟨noMissing, noCommand, _, _, built.symm⟩)
  have lines : merged.commandLines ≠ [] := by simpa [commandLines, commands] using noCommand
  rw [if_neg lines] at built
  -- only a builder with an output gets past the panic
  cases listed : r.outputs with
  | nil =>
    rw [listed] at built
    exact .inr (.inr (.inl ⟨noMissing, noCommand, rfl, built.symm⟩))
  | cons output implicitOutputs =>
    rw [listed] at built
    exact .inr (.inr (.inr ⟨noMissing, noCommand, output, implicitOutputs, _, _, _, rfl, rfl, built.symm⟩))

/-- The rule `Build` hands its context declares the builder's own inputs, outputs, first depfile
and restat. -/
theorem rule_of_build {name desc : String} {r' : RuleBuilder} {errors : List PathError} {rule : String}
    {params : RuleParams} {implicits : List String} {output : String} {implicitOutputs : List String}
    {depfile : Option String} {description : String}
    (built : r.build ctx name desc =
      .ok (r', errors, some (.rule rule params implicits output implicitOutputs depfile description))) :
    implicits = r.inputs ∧ output :: implicitOutputs = r.outputs ∧ depfile = r.depFiles.head? ∧
      params.restat = r.restat := by
  rcases r.build_inversion ctx built with ⟨-, missing⟩ | ⟨-, -, _, _, noRule⟩ | ⟨-, -, -, panic⟩ |
    ⟨-, -, output', implicitOutputs', merged, errors', params', listed, restat, made⟩
  · simp at missing
  · simp at noRule
  · cases panic
  · simp only [Except.ok.injEq, Prod.mk.injEq, Option.some.injEq, Built.rule.injEq] at made
    obtain ⟨-, -, -, rfl, rfl, rfl, rfl, rfl, -⟩ := made
    exact ⟨rfl, listed.symm, rfl, restat⟩

theorem build_declares {name desc : String} {r' : RuleBuilder} {errors : List PathError} {rule : String}
    {params : RuleParams} {implicits : List String} {output : String} {implicitOutputs : List String}
    {depfile : Option String} {description : String}
    (built : r.build ctx name desc =
      .ok (r', errors, some (.rule rule params implicits output implicitOutputs depfile description))) :
    implicits = r.inputs ∧ implicits.Pairwise (· < ·) ∧
      output :: implicitOutputs = r.outputs ∧ (output :: implicitOutputs).Pairwise (· < ·) ∧
      depfile = r.depFiles.head? ∧ params.restat = r.restat := by
  obtain ⟨implicit, declared, depFile, restat⟩ := r.rule_of_build ctx built
  refine ⟨implicit, ?_, declared, ?_, depFile, restat⟩
  · rw [implicit, inputs]
    exact pairwise_sortedKeys _
  · rw [declared, outputs]
    exact pairwise_sortedKeys _

end Build

/-- A context whose host tools live in `out/host/bin`, and whose escapes leave these samples alone. -/
def sampleContext : BuildContext := ⟨fun tool => "out/host/bin/" ++ tool, "out", id, id⟩

/-- The builder of one compile command that also writes a depfile. -/
def compileSample : RuleBuilder :=
  ⟨[⟨"cc -o out/a.o a.c", ["a.c"], ["out/a.o"], ["out/a.d"], ["cc"], false, ""⟩], [], [], false, false, "", []⟩

theorem build_declares_compile :
    ["a.c"] = compileSample.inputs ∧ ["a.c"].Pairwise (· < ·) ∧ ["out/a.o"] = compileSample.outputs ∧
      ["out/a.o"].Pairwise (· < ·) ∧ some "out/a.d" = compileSample.depFiles.head? ∧
      (⟨"cc -o out/a.o a.c", ["cc"], false⟩ : RuleParams).restat = compileSample.restat :=
  @build_declares compileSample sampleContext "cc" "compile" compileSample [] "cc" ⟨"cc -o out/a.o a.c", ["cc"], false⟩
    ["a.c"] "out/a.o" [] (some "out/a.d") "compile" (by decide +kernel)

section Made

variable {steps : List Step} {r : RuleBuilder} (made : RuleBuilder.new.run steps = .ok r) (ctx : BuildContext)
  {name desc : String} {r' : RuleBuilder} {errors : List PathError} {rule : String} {params : RuleParams}
  {implicits : List String} {output : String} {implicitOutputs : List String} {depfile : Option String}
  {description : String}

include made

/-- A sandboxed rule never depends on a file in its own output directory. -/
theorem build_sandbox_inputs (sboxed : r.sbox = true)
    (built : r.build ctx name desc =
      .ok (r', errors, some (.rule rule params implicits output implicitOutputs depfile description))) :
    ∀ path ∈ implicits, RuleBuilderCommand.inSandbox r.sboxOutDir path = false := by
  rw [(r.rule_of_build ctx built).1]
  exact (Sound.new.run steps made).inputs_outside sboxed

end Made

/-- The steps of a sandboxed copy that reads one file from the source tree and one from its own
output directory. -/
def copySteps : List Step :=
  [.sbox "out/gen", .command [.tool "cp", .input "src/x", .input "out/gen/y", .output "out/gen/z"]]

/-- The builder `copySteps` makes. -/
def copySample : RuleBuilder :=
  ⟨[⟨"cp src/x __SBOX_OUT_DIR__/y __SBOX_OUT_DIR__/z", ["src/x"], ["out/gen/z"], [], ["cp"], true, "out/gen"⟩],
    [], [], false, true, "out/gen", []⟩

/-- The rule `Build` makes of `copySample`. -/
def copyParams : RuleParams :=
  ⟨"out/host/bin/sbox -c 'cp src/x __SBOX_OUT_DIR__/y __SBOX_OUT_DIR__/z' --sandbox-path out/.temp " ++
    "--output-root out/gen __SBOX_OUT_DIR__/z", ["cp", "out/host/bin/sbox"], false⟩

theorem build_sandbox_inputs_copy : RuleBuilderCommand.inSandbox copySample.sboxOutDir "src/x" = false :=
  @build_sandbox_inputs copySteps copySample (by decide +kernel) sampleContext "cp" "copy" copySample [] "cp" copyParams
    ["src/x"] "out/gen/z" [] none "copy" rfl (by decide +kernel) "src/x" (by simp)

end RuleBuilder

end Soong.Android
