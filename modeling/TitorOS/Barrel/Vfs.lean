import Mathlib.Logic.Basic

/-! Vnodes, file descriptors and the position handling of `kernel/vfs.c`.
`none` stands for `kpanic` and for the `while(1)` after a rejected request. -/

namespace TitorOS.Barrel

/-- The three `fs_t` tables. -/
inductive Fs where
  | tmpfs | devfs | ext2fs
  deriving DecidableEq, Repr

inductive ReadFn where
  | tmpread | devRead | ext2Read
  deriving DecidableEq, Repr

def Fs.read : Fs → Option ReadFn
  | .tmpfs => some .tmpread
  | .devfs => some .devRead
  | .ext2fs => some .ext2Read

/-- A `vnode_t*`: the global root, or a slot of a page of dirents. -/
inductive NodePtr where
  | root
  | dirent (page slot : Nat)
  deriving DecidableEq, Repr

/-- `vnode_t`; the `parent` member is never read or written. -/
structure Vnode where
  name : List Char
  flags : UInt32
  size : UInt32
  fs : Fs
  inode : UInt32
  fsInstance : UInt8
  dirents : Nat
  deriving DecidableEq, Repr

structure Fd where
  node : NodePtr
  mode : UInt8
  position : UInt32
  deriving DecidableEq, Repr

def seek (fd : Fd) (node : Vnode) (count : UInt32) (whence : UInt8) : Fd :=
  if whence = 0 then { fd with position := count }
  else if whence = 1 then { fd with position := fd.position + count }
  else if whence = 2 then { fd with position := node.size + count }
  else fd

def read (fd : Fd) (node : Vnode) (count : UInt32) : Option (ReadFn × UInt32 × UInt32) :=
  if fd.mode = 0 then none
  else if fd.mode &&& 0b00000001 = 0 then none
  else if fd.position + count > node.size ∧ node.size ≠ 0 then none
  else node.fs.read.map fun func => (func, count, fd.position)

end TitorOS.Barrel
