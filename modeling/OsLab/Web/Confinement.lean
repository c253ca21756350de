import OsLab.Lib.Resolve
import OsLab.Web.Request

/-!
# The served directory

The working directory after `main` and workers have called `chdir_or_die(root)`, and where the file
name of a request leads from there. A call of `chdir` that fails aborts the server.

* **`resolvePath`**, **`chdir`**, **`workingDirectory`** -- paths from a working directory, and the
  calls of `main` and of the workers that have started.
* **`workingDirectory_eq`**, **`prefix_workingDirectory`** -- where workers end up, for roots that
  name themselves and for others.
* **`reducedName`**, **`requestParseUri_confined`** -- a file name without its steps back, and which
  names lead outside.
* **`dotDot_leaves`** -- one that does.
-/

namespace OsLab.Web

open Resolve Words

/-- The names that lead to a directory from `/`. -/
abbrev Directory := List (List UInt8)

/-- `"."` leads nowhere. -/
def component (piece : List UInt8) : Option (Component (List UInt8)) :=
  if piece = ascii "." then
    none
  else if piece = ascii ".." then
    some .up
  else
    some (.name piece)

def components (path : List UInt8) : List (Component (List UInt8)) :=
  (words slash path).filterMap component

/-- Where a path leads to from a working directory. -/
def resolvePath (cwd : Directory) (path : List UInt8) : Directory :=
  resolve (if path.head? = some slash then [] else cwd) (components path)

/-- `chdir` where there are some directories; the empty path is an error. -/
def chdir (isDirectory : Directory → Bool) (cwd : Directory) (path : List UInt8) :
    Option Directory :=
  if path ≠ [] ∧ isDirectory (resolvePath cwd path) = true then
    some (resolvePath cwd path)
  else
    none

/-- The working directory after the call of `main`, in `start`, and those of some workers. -/
def workingDirectory (isDirectory : Directory → Bool) (start : Directory) (root : List UInt8) :
    Nat → Option Directory
  | 0 => chdir isDirectory start root
  | workers + 1 => do
    let cwd ← workingDirectory isDirectory start root workers
    chdir isDirectory cwd root

variable {isDirectory : Directory → Bool} {start cwd served : Directory} {root uri : List UInt8}
  {workers : Nat} {parsed : Parsed}

/-- A call that succeeds goes where the path leads. -/
theorem chdir_eq (h : chdir isDirectory cwd root = some served) :
    served = resolvePath cwd root := by
  unfold chdir at h
  split at h
  · exact (Option.some.inj h).symm
  · cases h

/-- An absolute path names the served directory from there too. -/
theorem resolvePath_absolute (hserved : chdir isDirectory start root = some served)
    (hroot : root.head? = some slash) : resolvePath served root = served := by
  have hstart := chdir_eq hserved
  unfold resolvePath at hstart ⊢
  rw [if_pos hroot] at hstart ⊢
  exact hstart.symm

/-- So does the default root `"."`. -/
theorem resolvePath_dot (served : Directory) : resolvePath served (ascii ".") = served := by
  have hcomponents : components (ascii ".") = [] := by decide
  have hhead : (ascii ".").head? ≠ some slash := by decide
  unfold resolvePath
  rw [if_neg hhead, hcomponents]
  rfl

/-- Workers do not leave a directory that `root` names from itself. -/
theorem workingDirectory_eq (hserved : chdir isDirectory start root = some served)
    (hsame : resolvePath served root = served)
    (hcwd : workingDirectory isDirectory start root workers = some cwd) : cwd = served := by
  induction workers generalizing cwd with
  | zero => exact Option.some.inj (hcwd.symm.trans hserved)
  | succ workers ih =>
    obtain ⟨before, hbefore, hchdir⟩ := Option.bind_eq_some_iff.mp hcwd
    rw [chdir_eq hchdir, ih hbefore, hsame]

/-- Workers go down from the served directory when `root` does not lead up; with a relative root
each of them goes further. -/
theorem prefix_workingDirectory (hserved : chdir isDirectory start root = some served)
    (hroot : (reduce (components root)).ups = 0)
    (hcwd : workingDirectory isDirectory start root workers = some cwd) : served <+: cwd := by
  by_cases habsolute : root.head? = some slash
  · rw [workingDirectory_eq hserved (resolvePath_absolute hserved habsolute) hcwd]
  · induction workers generalizing cwd with
    | zero => rw [Option.some.inj (hcwd.symm.trans hserved)]
    | succ workers ih =>
      obtain ⟨before, hbefore, hchdir⟩ := Option.bind_eq_some_iff.mp hcwd
      rw [chdir_eq hchdir]
      unfold resolvePath
      rw [if_neg habsolute]
      exact (ih hbefore).trans (prefix_resolve hroot before)

/-- A file name is relative, for it begins with a dot. -/
theorem resolvePath_fileName (cwd : Directory) (path : List UInt8) :
    resolvePath cwd (fileName path) = resolve cwd (components (fileName path)) := by
  have hhead : (fileName path).head? = some 46 := rfl
  unfold resolvePath
  rw [if_neg (by rw [hhead]; decide)]

/-- The file name of a request, reduced. -/
def reducedName (parsed : Parsed) : Reduced (List UInt8) :=
  reduce (components parsed.filename.bytes)

/-- **Which requests stay inside.** From a directory that `root` names from itself, exactly the file
names lead outside whose steps up are not undone. A `root` and a file name that do not lead up stay
inside in any case. -/
theorem requestParseUri_confined (isDirectory : Directory → Bool) (start served cwd : Directory)
    (root uri : List UInt8) (workers : Nat) (parsed : Parsed)
    (hserved : chdir isDirectory start root = some served)
    (hcwd : workingDirectory isDirectory start root workers = some cwd)
    (hparse : requestParseUri (some uri) = .ok parsed) :
    (resolvePath served root = served →
      (served <+: resolvePath cwd parsed.filename.bytes ↔
        served.rtake (reducedName parsed).ups <+: (reducedName parsed).names)) ∧
    ((reduce (components root)).ups = 0 → (reducedName parsed).ups = 0 →
      served <+: resolvePath cwd parsed.filename.bytes) := by
  have hresolve : resolvePath cwd parsed.filename.bytes =
      resolve cwd (components parsed.filename.bytes) := by
    rw [requestParseUri_filename hparse]
    exact resolvePath_fileName cwd (uriPath uri)
  rw [hresolve]
  constructor
  · intro hsame
    rw [workingDirectory_eq hserved hsame hcwd]
    exact prefix_resolve_iff
  · intro hroot hname
    exact (prefix_workingDirectory hserved hroot hcwd).trans (prefix_resolve hname cwd)

theorem fileName_dotDot : fileName (uriPath (ascii "/../b")) = ascii "./../b" ∧
    fileName (uriPath (ascii "/a/../b")) = ascii "./a/../b" := by
  decide +kernel

/-- `"/a/../b"` under `"/srv"`, with two workers. -/
theorem requestParseUri_confined_srv : ∃ parsed,
    requestParseUri (some (ascii "/a/../b")) = .ok parsed ∧
      [ascii "srv"] <+: resolvePath [ascii "srv"] parsed.filename.bytes := by
  obtain ⟨parsed, hparse, hfilename, _⟩ :=
    @requestParseUri_ok (ascii "/a/../b") (by decide) (by decide +kernel) (by decide +kernel)
  have hserved : chdir (fun _ => true) [] (ascii "/srv") = some [ascii "srv"] := by decide
  have hcwd : workingDirectory (fun _ => true) [] (ascii "/srv") 2 = some [ascii "srv"] := by decide
  have h := requestParseUri_confined _ _ _ _ _ _ _ _ hserved hcwd hparse
  have hname : (reducedName parsed).ups = 0 := by
    unfold reducedName
    rw [hfilename, fileName_dotDot.2]
    decide
  exact ⟨parsed, hparse, h.2 (by decide) hname⟩

/-- `"/../b"` under `"/srv"` is `"/b"`. -/
theorem dotDot_leaves : ∃ parsed, requestParseUri (some (ascii "/../b")) = .ok parsed ∧
    chdir (fun _ => true) [] (ascii "/srv") = some [ascii "srv"] ∧
    workingDirectory (fun _ => true) [] (ascii "/srv") 2 = some [ascii "srv"] ∧
    ¬ [ascii "srv"] <+: resolvePath [ascii "srv"] parsed.filename.bytes := by
  obtain ⟨parsed, hparse, hfilename, _⟩ :=
    @requestParseUri_ok (ascii "/../b") (by decide) (by decide +kernel) (by decide +kernel)
  refine ⟨parsed, hparse, by decide, by decide, ?_⟩
  rw [hfilename, fileName_dotDot.1]
  decide

end OsLab.Web
