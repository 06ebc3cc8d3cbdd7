import Mathlib.Data.Nat.Notation
import Mathlib.Tactic.Common

/-!
# Walking a path

`Client::path_walk` over any `_lookup`, which gives an inode or an error. The
path that is walked is rewritten at each symlink, and `i` is the position in
it. A `filepath` is whether it is absolute, and its components; of an inode it
matters whether it is a symlink, and with which target.
-/

namespace CephMds.PathWalk

structure Filepath where
  absolute : Bool
  bits : List String
  deriving DecidableEq, Repr

/-- The inodes that a client sees, with the errors of `_lookup`. -/
structure Tree (ι ε : Type) where
  lookup : ι → String → Except ε ι
  /-- The target of a symlink. -/
  symlink : ι → Option Filepath
  root : ι
  cwd : ι

inductive Error (ε : Type)
  | lookup (e : ε)
  | eloop
  deriving DecidableEq, Repr

variable {ι ε : Type}

namespace Tree

/-- `root` for an absolute path. -/
def start (t : Tree ι ε) (cur : ι) (path : Filepath) : ι := if path.absolute then t.root else cur

/-- The loop of `path_walk`. -/
def walk (t : Tree ι ε) (maxSymlinks : ℕ) (followsym : Bool) (cur : ι) (path : List String) (i symlinks : ℕ) :
    Except (Error ε) ι :=
  if h : i < path.length then
    match t.lookup cur path[i] with
    | .error e => .error (.lookup e)
    | .ok next =>
      match t.symlink next with
      | none => t.walk maxSymlinks followsym next path (i + 1) symlinks
      | some target =>
        if maxSymlinks < symlinks + 1 then .error .eloop
        else if i < path.length - 1 then
          -- `resolved.append(path.postfixpath(i + 1))`
          t.walk maxSymlinks followsym (t.start cur target) (target.bits ++ path.drop (i + 1)) 0 (symlinks + 1)
        else if followsym then
          if target.absolute then t.walk maxSymlinks followsym t.root target.bits 0 (symlinks + 1)
          else t.walk maxSymlinks followsym cur (path.dropLast ++ target.bits) i (symlinks + 1)
        else t.walk maxSymlinks followsym next path (i + 1) (symlinks + 1)
  else .ok cur
termination_by (maxSymlinks + 1 - symlinks, path.length - i)

/-- `path_walk`. -/
def pathWalk (t : Tree ι ε) (maxSymlinks : ℕ) (origpath : Filepath) (followsym : Bool) : Except (Error ε) ι :=
  t.walk maxSymlinks followsym (t.start t.cwd origpath) origpath.bits 0 0

end Tree

end CephMds.PathWalk
