import Mathlib

namespace Go.Os

/-- The file system as the `os` calls of one process see it: each name holds the contents of a
file, or nothing. Directories, permissions and every error other than a missing file are left
out, and so are the file handles: a file is created, written and closed in one step.

The contents of the file each name refers to. -/
abbrev Fs := String → Option String

/-- `os.Lstat(name)` returns no error. -/
def lstat (fs : Fs) (name : String) : Bool := (fs name).isSome

/-- `os.Rename`: the file moves to `newpath`, over whatever was there. Renaming a file onto
itself changes nothing. -/
def rename (fs : Fs) (oldpath newpath : String) : Except String Fs :=
  match fs oldpath with
  | none => .error ("rename " ++ oldpath ++ " " ++ newpath ++ ": no such file or directory")
  | some contents =>
    if oldpath = newpath then .ok fs
    else .ok (Function.update (Function.update fs oldpath none) newpath (some contents))

/-- `os.Create`: an empty file, truncated if it was there. -/
def create (fs : Fs) (name : String) : Fs := Function.update fs name (some "")

/-- `os.OpenFile(name, os.O_RDWR|os.O_CREATE, perm)`: the file as it was, or a new empty one. -/
def openCreate (fs : Fs) (name : String) : Fs :=
  if lstat fs name then fs else create fs name

/-- Writing `data` to a file just created and closing it. -/
def writeNew (fs : Fs) (name data : String) : Fs := Function.update fs name (some data)

theorem rename_of_ne {fs : Fs} {oldpath newpath : String} {contents : String}
    (present : fs oldpath = some contents) (other : oldpath ≠ newpath) :
    rename fs oldpath newpath = .ok (Function.update (Function.update fs oldpath none) newpath (some contents)) := by
  simp [rename, present, other]

theorem openCreate_of_ne {fs : Fs} {name other : String} (different : other ≠ name) :
    openCreate fs name other = fs other := by
  unfold openCreate create
  split
  · rfl
  · exact Function.update_of_ne different _ _

end Go.Os
