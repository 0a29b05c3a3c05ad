import TitorOS.Barrel.Bound

/-! `readdir` and `ext2_enum` on nodes that are no directories. Both start with the test
`flags & 0x80000000 == 0`; the functions are repeated here with that test and with what they
pass over as directory entries and store in the caller's buffer. -/

namespace TitorOS.Barrel.Vfs

/-- The test as the compiler groups it: `flags & (0x80000000 == 0)`. -/
def notDirectory (flags : UInt32) : Bool :=
  flags &&& (if DIRECTORY = 0 then 1 else 0) ≠ 0

def ext2EnumSeen (vol : Volume) (getnode : List Char → Op NodePtr) (vnode : NodePtr) :
    Op (List Buffer) := do
  let k ← get
  if notDirectory (k.node vnode).flags then return []
  else
    let (inodePage, inode) ← getInode vol getnode vnode
    let _ ← kmalloc
    let volume ← open_ getnode volumePath 1
    seek volume (inode.blockPointer * BLOCK_FACTOR) 0
    let block ← read vol volume
    let name ← kmalloc
    enumEntries vol getnode vnode block 512 0
    modify (Kernel.setNode · vnode fun n => { n with flags := n.flags ||| 0x40000000 })
    kfree name
    kfree inodePage
    close volume
    return [block]

/-- What a call of `readdir` did: the blocks read as directory entries, and the
characters stored in the caller's buffer from its start on. -/
structure Seen where
  blocks : List Buffer
  stored : List Char

def enumdirSeen (vol : Volume) (getnode : List Char → Op NodePtr) (vnode : NodePtr) :
    Op (List Buffer) := do
  let k ← get
  if (k.node vnode).fs = .ext2fs then
    let dirents := (k.node vnode).dirents
    modify fun k => { k with pages := Function.update k.pages dirents fun _ => blankNode }
    ext2EnumSeen vol getnode vnode
  else return []

/-- `readdir` with its test and the final `strcpy` to the caller's buffer. -/
def readdirSeen (vol : Volume) (depth : Nat) (path : List Char) : Op Seen := do
  let node ← getnode vol (depth + 1) path
  let k ← get
  if notDirectory (k.node node).flags then return ⟨[], []⟩
  else
    let blocks ← enumdirSeen vol (getnode vol depth) node
    let contents ← kmalloc
    let k ← get
    match contentsOf (k.pages (k.node node).dirents) (DIRENT_SLOTS + 1) 0 with
    | none => failure
    | some text =>
        kfree contents
        return ⟨blocks, text ++ [NUL]⟩

/-- The call returned from `k`, with no block read as entries and every vnode as before. -/
def EnumLeaves (vol : Volume) (depth : Nat) (p : NodePtr) (k : Kernel) : Prop :=
  ∃ k', ext2EnumSeen vol (getnode vol depth) p k = some ([], k') ∧
    k'.root = k.root ∧ k'.pages = k.pages

def ReaddirLeaves (vol : Volume) (depth : Nat) (path : List Char) (k resolved : Kernel) : Prop :=
  ∃ k', readdirSeen vol depth path k = some (⟨[], []⟩, k') ∧
    k'.root = resolved.root ∧ k'.pages = resolved.pages

theorem notDirectory_never (flags : UInt32) : notDirectory flags = false := by
  have nonzero : DIRECTORY ≠ 0 := by decide
  rw [notDirectory, if_neg nonzero, UInt32.and_zero]
  rfl

section Calls

variable {vol : Volume} {depth : Nat} {k k' : Kernel} {p : NodePtr}

theorem ext2Enum_seen (getnode : List Char → Op NodePtr) :
    ext2Enum vol getnode p = ext2EnumSeen vol getnode p >>= fun _ => pure () := by
  funext k
  rw [ext2Enum, ext2EnumSeen, bind_assoc, get_bind, notDirectory_never]
  simp only [Bool.false_eq_true, if_false, bind_assoc, pure_bind, bind_pure_unit]

theorem enumdir_seen (getnode : List Char → Op NodePtr) :
    enumdir vol getnode p = enumdirSeen vol getnode p >>= fun _ => pure () := by
  funext k
  rw [enumdir, enumdirSeen, bind_assoc, get_bind, get_bind]
  by_cases ext2 : (k.node p).fs = .ext2fs
  · rw [if_pos ext2, if_pos ext2, bind_assoc, ext2Enum_seen]
  · rw [if_neg ext2, if_neg ext2, pure_bind]

theorem readdir_seen (path : List Char) :
    readdir vol depth path =
      readdirSeen vol depth path >>= fun seen => pure seen.stored.dropLast := by
  rw [readdir, readdirSeen, bind_assoc]
  refine bind_congr fun node => funext fun k => ?_
  rw [bind_assoc, get_bind, notDirectory_never, enumdir_seen]
  simp only [Bool.false_eq_true, if_false, bind_assoc, pure_bind]
  refine congrFun (bind_congr fun blocks => bind_congr fun contents => funext fun k₂ => ?_) k
  rw [get_bind, get_bind]
  cases contentsOf (k₂.pages (k₂.node node).dirents) (DIRENT_SLOTS + 1) 0 with
  | none => rfl
  | some text =>
      simp only [bind_assoc, pure_bind, List.dropLast_concat]

theorem ext2EnumSeen_reads {getnode : List Char → Op NodePtr} {blocks : List Buffer}
    (ran : ext2EnumSeen vol getnode p k = some (blocks, k')) : blocks ≠ [] := by
  rw [ext2EnumSeen, get_bind, notDirectory_never] at ran
  simp only [Bool.false_eq_true, if_false] at ran
  rcases bind_some ran with ⟨⟨inodePage, inode⟩, _, -, steps⟩
  rcases bind_some steps with ⟨_, _, -, steps⟩
  rcases bind_some steps with ⟨volume, _, -, steps⟩
  rcases bind_some steps with ⟨_, _, -, steps⟩
  rcases bind_some steps with ⟨block, _, -, steps⟩
  rcases bind_some steps with ⟨name, _, -, steps⟩
  rcases bind_some steps with ⟨_, _, -, steps⟩
  rcases bind_some steps with ⟨_, _, -, steps⟩
  rcases bind_some steps with ⟨_, _, -, steps⟩
  rcases bind_some steps with ⟨_, _, -, steps⟩
  rcases bind_some steps with ⟨_, _, -, steps⟩
  cases steps
  exact List.cons_ne_nil block []

theorem readdirSeen_stores {path : List Char} {seen : Seen}
    (ran : readdirSeen vol depth path k = some (seen, k')) : seen.stored ≠ [] := by
  rcases bind_some ran with ⟨node, k₁, -, steps⟩
  rw [get_bind, notDirectory_never] at steps
  simp only [Bool.false_eq_true, if_false] at steps
  rcases bind_some steps with ⟨blocks, _, -, steps⟩
  rcases bind_some steps with ⟨contents, k₃, -, steps⟩
  rw [get_bind] at steps
  cases listed : contentsOf (k₃.pages (k₃.node node).dirents) (DIRENT_SLOTS + 1) 0 with
  | none =>
    simp only [listed] at steps
    cases steps
  | some text =>
    simp only [listed] at steps
    rcases bind_some steps with ⟨_, _, -, steps⟩
    cases steps
    exact List.concat_ne_nil NUL text

theorem node_always_enumerated (vol : Volume) (depth : Nat) (path : List Char) (p : NodePtr)
    (k resolved : Kernel) :
    ¬ ReaddirLeaves vol depth path k resolved ∧ ¬ EnumLeaves vol depth p resolved := by
  constructor
  · rintro ⟨k', ran, -⟩
    exact readdirSeen_stores ran rfl
  · rintro ⟨k', ran, -⟩
    exact ext2EnumSeen_reads ran rfl

end Calls

def plantedVolume : Volume where
  groupInodeCount := 32
  inodeSize := 128
  inodeTable _ := 4
  part := 2048
  disk lba :=
    if lba = 2080 then fun i => if i = 168 then 10 else if i = 1448 then 20 else 0
    else if lba = 2128 then packedBlock
    else if lba = 2208 then fun i => if i = 0 then 13 else if i = 6 then 1 else if i = 8 then 98 else 0
    else fun _ => 0
  groups := inode_groups
  sized := small_inodes

theorem planted_file_listed :
    ¬ ∀ (vol : Volume) (depth : Nat) (path : List Char) (k resolved : Kernel) (p : NodePtr),
      getnode vol (depth + 1) path k = some (p, resolved) →
        (resolved.node p).flags &&& DIRECTORY = 0 →
          ReaddirLeaves vol depth path k resolved ∧ EnumLeaves vol depth p resolved := by
  intro claim
  have plain : (getnode plantedVolume 2 "/mnt/a".toList mounted).map
      (fun r => (r.2.node r.1).flags &&& DIRECTORY) = some 0 := by
    decide +kernel
  have stores : (readdirSeen plantedVolume 1 "/mnt/a".toList mounted).map (·.1.stored) =
      some ['b', '\n', NUL] := by
    decide +kernel
  rcases Option.map_eq_some_iff.mp plain with ⟨⟨p, resolved⟩, found, flags⟩
  rcases claim plantedVolume 1 "/mnt/a".toList mounted resolved p found flags with
    ⟨⟨k', ran, -⟩, -⟩
  rw [ran] at stores
  cases stores

end TitorOS.Barrel.Vfs
