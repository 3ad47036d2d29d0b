import Soong.Androidmk.Parser

namespace Soong.Makedeps

open Androidmk

structure Deps where
  output : String
  inputs : List String
  deriving DecidableEq, Repr

/-- The errors `Parse` returns, by the check that fails and the values its text prints; the
positions in front of them are left out. -/
inductive Failure where
  | parseError (err : ParseErr)
  | manyErrors (errs : List ParseErr)
  | unexpectedRecipe (recipe : List Char)
  | unsupportedExpansion (ms : MakeString)
  | missingOutput
  | unexpectedLine (node : Node)
  | outOfFuel
  deriving DecidableEq, Repr

/-- What `Parse` does: return its `Deps`, return an error, or panic. -/
inductive ParseResult where
  | ok (deps : Deps)
  | error (failure : Failure)
  | panic
  deriving DecidableEq, Repr

/-- The loop of `Parse` over the sorted nodes: a rule sets the output to the first word of its
target and appends the words of its prerequisites; comments are skipped. -/
def collect (ret : Deps) : List Node → Except Failure Deps
  | [] => .ok ret
  | .comment .. :: rest => collect ret rest
  | .rule target prerequisites recipe :: rest =>
    if recipe ≠ [] then .error (.unexpectedRecipe recipe)
    else if !target.const then .error (.unsupportedExpansion target)
    else match target.words with
      | [] => .error .missingOutput
      | output :: _ =>
        if !prerequisites.const then .error (.unsupportedExpansion prerequisites)
        else collect ⟨String.ofList output.constValue,
          ret.inputs ++ prerequisites.words.map fun input => String.ofList input.constValue⟩ rest
  | node :: _ => .error (.unexpectedLine node)

/-- `Parse`. -/
def parse (input : String) : ParseResult :=
  match Androidmk.parse input.toList with
  | .error .indexOutOfRange => .panic
  | .error _ => .error .outOfFuel
  | .ok (_, [err]) => .error (.parseError err)
  | .ok (_, errs@(_ :: _ :: _)) => .error (.manyErrors errs)
  | .ok (nodes, []) =>
    match collect ⟨"", []⟩ nodes with
    | .ok deps => .ok deps
    | .error failure => .error failure

/-- The replacements of `Print`'s `strings.Replacer`, all of single bytes, so each character is
replaced on its own. -/
def escape (c : Char) : List Char :=
  if c = ' ' then ['\\', ' ']
  else if c = ':' then ['\\', ':']
  else if c = '#' then ['\\', '#']
  else if c = '$' then ['$', '$']
  else if c = '\\' then ['\\', '\\']
  else [c]

def replace (s : String) : List Char := s.toList.flatMap escape

/-- `Print`. -/
def Deps.print (d : Deps) : String :=
  String.ofList (replace d.output ++ ':' :: d.inputs.flatMap (fun input => ' ' :: replace input) ++ ['\n'])

end Soong.Makedeps
