import Mathlib.Data.List.TakeWhile
import TitorOS.Barrel.Resolve

/-! What a lookup takes of the descriptors and of the heap, and what it gives back. A lookup in
directories that no driver enumerates gives everything back; one whose last directory is an ext2
directory keeps pages each time. -/

namespace TitorOS.Barrel.Vfs

open TitorOS.Lib

section Getnode

variable {vol : Volume} {k : Kernel} {depth : Nat} {path : List Char}

theorem getnode_costs (fds pages fds' pages' : Int) (short : path.length < 4096)
    (nonneg : 0 ≤ fds ∧ 0 ≤ pages) (within : fds' ≤ fds ∧ pages' ≤ pages)
    {post : NodePtr → Kernel → Prop}
    (search : ∀ k₁, Quiet k k₁ → k₁.fds = k.fds → k₁.token = strtok path →
      Costs room (descend (enumdir vol (getnode vol depth)) path (path.length + 1) []
        (k₁.token.map cstr) .root) k₁ (fds, pages) (fds', pages') fun p k₂ =>
          (∀ q, k₁.heap q = true → k₂.heap q = true) ∧ post p k₂)
    (settled : ∀ p k₂ heap, post p k₂ → post p { k₂ with heap := heap }) :
    Costs room (getnode vol (depth + 1) path) k (fds, pages + 2) (fds', pages') post := by
  rw [getnode]
  refine (Costs.bind (fds, pages + 1) (fds', pages' - 1) (kmalloc_costs k) ?_).cast
    (need_eq (by omega) (by omega)) (net_eq (by omega) (by omega))
  intro a k₁ takenA _
  obtain ⟨smallA, freeA, same₁⟩ := takenA
  refine (Costs.bind (fds, pages) (fds', pages' - 2) (kmalloc_costs k₁) ?_).cast
    (need_eq (by omega) (by omega)) (net_eq (by omega) (by omega))
  intro b k₂ takenB _
  obtain ⟨smallB, freeB, same₂⟩ := takenB
  have quiet := (quiet_kmalloc same₁).trans (quiet_kmalloc same₂)
  have takenA : k₂.heap a = true := by
    apply (quiet_kmalloc same₂).heap
    rw [same₁]
    exact Function.update_self ..
  have takenB : k₂.heap b = true := by
    rw [same₂]
    exact Function.update_self ..
  have apart : b ≠ a := by
    intro same
    rw [same, same₁] at freeB
    cases freeB.symm.trans (Function.update_self ..)
  rw [if_neg (by omega)]
  have level : room { k₂ with token := strtok path } = room k₂ := rfl
  refine (Costs.bind (fds, pages) (fds', pages' - 2) (modify_costs level) ?_).cast
    (need_eq (by omega) (by omega)) (net_eq (by omega) (by omega))
  intro _ k₃ same₃ _
  refine Costs.congr ?_ (get_bind _ k₃)
  have quiet₃ : Quiet k k₃ := by
    rw [same₃]
    exact ⟨quiet.root, quiet.pages, quiet.heap⟩
  have found := search k₃ quiet₃ (by rw [same₃, same₂, same₁]) (by rw [same₃])
  refine (Costs.bind (0, 0) (0, -2) found ?_).cast (need_eq (by omega) (by omega))
    (net_eq (by omega) (by omega))
  intro p k₄ settles _
  obtain ⟨kept, holds⟩ := settles
  have usedA : k₄.heap a = true := kept a (by rw [same₃]; exact takenA)
  have usedB : k₄.heap b = true := kept b (by rw [same₃]; exact takenB)
  refine (Costs.bind (0, 0) (0, -1) (kfree_costs smallA usedA) ?_).cast rfl rfl
  intro _ k₅ same₅ _
  have usedB₅ : k₅.heap b = true := by
    rw [same₅]
    exact (Function.update_of_ne apart ..).trans usedB
  refine (Costs.bind (0, 0) (0, 0) (kfree_costs smallB usedB₅) ?_).cast rfl rfl
  intro _ k₆ same₆ _
  refine Costs.pure (room_nonneg k₆) ?_
  rw [same₆, same₅]
  exact settled p k₄ _ holds

theorem getnode_quiet_costs (vol : Volume) (depth : Nat) {parts : List (List Char)} {node : NodePtr}
    (short : (pathOf parts).length < 4096) (proper : ∀ part ∈ parts, Proper part)
    (found : treeNode k .root parts = some node) :
    Costs room (getnode vol (depth + 1) (pathOf parts)) k (0, 2) (0, 0) fun _ k' =>
      k'.root = k.root ∧ k'.pages = k.pages ∧ k'.fds = k.fds := by
  refine getnode_costs 0 0 0 0 short ⟨le_rfl, le_rfl⟩ ⟨le_rfl, le_rfl⟩ ?_ ?_
  · intro k₁ quiet fds token
    have found₁ := (treeNode_congr quiet.root quiet.pages .root parts).trans found
    have token₁ : k₁.token = tokenOf (parts ++ []) := by
      rw [token, strtok_path proper, List.append_nil]
    have proper₁ : ∀ part ∈ parts ++ [], Proper part := by rwa [List.append_nil]
    have start : [] ++ pathOf (parts ++ []) = pathOf parts := by
      rw [List.append_nil, List.nil_append]
    have long := pathOf_length parts
    have rounds : (pathOf parts).length + 1 =
        (pathOf parts).length - parts.length + 1 + parts.length := by
      omega
    have ran : descend (enumdir vol (getnode vol depth)) (pathOf parts) ((pathOf parts).length + 1) []
        (k₁.token.map cstr) .root k₁ = some (node, { k₁ with token := none }) := by
      rw [rounds, descend_tree _ proper₁ found₁ token₁ start]
      exact descend_done rfl _ _ _ _
    exact Costs.step (room_nonneg k₁) ran (sub_zero _).symm
      ⟨fun _ used => used, quiet.root, quiet.pages, fds⟩
  · intro _ _ _ same
    exact same

end Getnode

section Disk

variable {vol : Volume} {k k₁ k' : Kernel} {nodes : Nat → Prop} {parent p : NodePtr} {depth : Nat}
  {front : List (List Char)} {last : List Char}

/-- The part is the name of an entry of an ext2 directory. -/
structure DiskEntry (vol : Volume) (k : Kernel) (parent : NodePtr) (last : List Char)
    (dirents : List Dirent) (slot : Nat) (entry : Entry) : Prop where
  ext2 : (k.node parent).fs = .ext2fs
  directory : (k.node parent).flags &&& DIRECTORY ≠ 0
  visits : visited vol k (k.node parent).inode = some dirents
  enumerable : Enumerable vol k dirents
  first : FirstNamed (listingOf vol k dirents).entries last 0 slot entry

theorem DiskEntry.congr {dirents : List Dirent} {slot : Nat} {entry : Entry}
    (there : DiskEntry vol k parent last dirents slot entry) (root : k'.root = k.root)
    (pages : k'.pages = k.pages) : DiskEntry vol k' parent last dirents slot entry := by
  have disk (sector : UInt32) : blockAt vol k' sector = blockAt vol k sector :=
    blockAt_congr root pages sector
  have node : k'.node parent = k.node parent := Kernel.node_congr root pages parent
  constructor
  case ext2 => exact node ▸ there.ext2
  case directory => exact node ▸ there.directory
  case visits => rw [node, visited_eq disk, there.visits]
  case enumerable => exact there.enumerable.congr disk
  case first =>
    rw [listingOf_eq disk]
    exact there.first

/-- What looks at the directory with this page leave: the other nodes are what they were, but for
their flags, and there is a table of descriptors. -/
structure Beside (k : Kernel) (page : Nat) (k' : Kernel) : Prop where
  root : k'.root = k.root
  fds : k'.fds = some k'.table
  others : ∀ q, q ≠ page → k.heap q = true → ∀ j, Alike (k.pages q j) (k'.pages q j)

theorem Enumerated.beside {listing : Listing} (enumerated : Enumerated vol k parent listing k') :
    Beside k (k.node parent).dirents k' := ⟨enumerated.root, enumerated.fds, enumerated.others⟩

theorem Tree.navigate_beside (tries i : Nat) (tree : Tree k nodes) (inside : InTree k nodes parent)
    (ext2 : (k.node parent).fs = .ext2fs)
    (ran : navigate (enumdir vol (getnode vol (depth + 1))) parent last tries i k = some (p, k')) :
    Beside k (k.node parent).dirents k' := by
  induction tries generalizing i k nodes with
  | zero => cases ran
  | succ tries ih =>
      rw [navigate, get_bind] at ran
      split at ran
      · cases ran
      · rcases bind_some ran with ⟨_, k₁, looked, steps⟩
        rcases tree.enumdir_ran inside ext2 looked with ⟨listing, enumerated⟩
        rw [get_bind] at steps
        split at steps
        · cases steps
          exact enumerated.beside
        · split at steps
          · cases steps
          · rcases enumerated.still tree inside with ⟨still, alike⟩
            have later := ih (i + 1) (enumerated.tree tree inside) still (alike.fs.trans ext2) steps
            rw [alike.dirents] at later
            refine ⟨later.root.trans enumerated.root, later.fds, ?_⟩
            intro q other used j
            exact (enumerated.others q other used j).trans
              (later.others q other (enumerated.heap q used) j)

theorem lookNet_le (table : Int) (count slot : Nat) :
    lookNet table count slot ≤ lookNeed table count slot := by
  refine ⟨?_, ?_⟩
  · simp only [lookNet, lookNeed]
    omega
  · have rounds : ((slot : Int) + 1) * (1 + 2 * count) = slot * (1 + 2 * count) + (1 + 2 * count) := by
      ring
    simp only [lookNet, lookNeed, rounds]
    omega

theorem Tree.descend_disk_costs {dirents : List Dirent} {slot : Nat} {entry : Entry}
    {path currentpath : List Char} (depth rounds : Nat) (tree : Tree k nodes)
    (inside : InTree k nodes parent) (named : last ≠ [])
    (there : DiskEntry vol k parent last dirents slot entry)
    (onward : currentpath ++ pathOf [last] = path) :
    Costs room (descend (enumdir vol (getnode vol (depth + 1))) path (rounds + 2) currentpath
      (some last) parent) k (lookNeed (tablePage k) dirents.length slot)
      (lookNet (tablePage k) dirents.length slot) fun _ k' =>
        (∀ q, k.heap q = true → k'.heap q = true) ∧ Beside k (k.node parent).dirents k' := by
  have ended : currentpath ++ ['/'] ++ last = path := by
    have rest := pathOf_onward onward
    rw [pathOf, List.flatMap_nil, List.append_nil] at rest
    exact rest
  have kept (p : NodePtr) (k' : Kernel)
      (ran : navigate (enumdir vol (getnode vol (depth + 1))) parent last 256 0 k = some (p, k')) :
      (∀ q, k.heap q = true → k'.heap q = true) ∧ Beside k (k.node parent).dirents k' := by
    rcases tree.navigate_grown named 256 0 inside (fun j below => absurd below (Nat.not_lt_zero j))
      ran with ⟨_, grown, _⟩
    exact ⟨grown.heap, tree.navigate_beside 256 0 inside there.ext2 ran⟩
  have look := (tree.navigate_costs depth 256 0 inside there.ext2 there.directory there.visits
    there.enumerable there.first (there.first.within there.enumerable)).and_ran kept
  rw [descend_step _ _ (pathOf_unended onward)]
  have covered : lookNeed (tablePage k) dirents.length slot ⊔
      (0 + lookNet (tablePage k) dirents.length slot) =
        lookNeed (tablePage k) dirents.length slot := by
    rw [zero_add]
    exact sup_eq_left.mpr (lookNet_le _ _ _)
  refine (Costs.bind 0 0 look ?_).cast covered (add_zero _)
  intro node k₁ looked _
  obtain ⟨_, heap, beside⟩ := looked
  have level : room { k₁ with token := strtokNext k₁.token } = room k₁ := rfl
  refine (Costs.bind 0 0 (modify_costs level) ?_).cast (by rw [add_zero, sup_idem]) (add_zero _)
  intro _ k₂ same _
  refine Costs.congr ?_ (get_bind _ k₂)
  refine Costs.step (room_nonneg k₂) (descend_done ended _ _ _ _) (sub_zero _).symm ?_
  rw [same]
  exact ⟨heap, beside.root, beside.fds, beside.others⟩

theorem Tree.search_disk_costs {dirents : List Dirent} {slot : Nat} {entry : Entry} (depth : Nat)
    (tree : Tree k nodes) (proper : ∀ part ∈ front ++ [last], Proper part)
    (found : treeNode k .root front = some parent)
    (there : DiskEntry vol k parent last dirents slot entry)
    (token : k.token = tokenOf (front ++ [last])) :
    Costs room (descend (enumdir vol (getnode vol (depth + 1))) (pathOf (front ++ [last]))
      ((pathOf (front ++ [last])).length + 1) [] (k.token.map cstr) .root) k
      (lookNeed (tablePage k) dirents.length slot) (lookNet (tablePage k) dirents.length slot)
      fun _ k' => (∀ q, k.heap q = true → k'.heap q = true) ∧ Beside k (k.node parent).dirents k' := by
  have rootInside : InTree k nodes .root := trivial
  have inside := treeNode_inTree (fun part member => proper part (List.mem_append_left _ member))
    tree rootInside found
  have lastProper := proper last (List.mem_append_right _ List.mem_cons_self)
  have whole : pathOf front ++ pathOf [last] = pathOf (front ++ [last]) := List.flatMap_append.symm
  rcases descend_parent vol (getnode vol (depth + 1)) proper found token with ⟨rounds, walked⟩
  have there₁ : DiskEntry vol { k with token := tokenOf [last] } parent last dirents slot entry := by
    refine there.congr ?_ ?_
    · rfl
    · rfl
  have costs := (tree.retoken (tokenOf [last])).descend_disk_costs depth rounds
    ((InTree.congr rfl).mpr inside) lastProper.named there₁ whole
  have level : room k = room { k with token := tokenOf [last] } := rfl
  have node : ({ k with token := tokenOf [last] } : Kernel).node parent = k.node parent := rfl
  refine (costs.move walked level).mono ?_
  intro p k' searched
  obtain ⟨kept, beside⟩ := searched
  rw [node] at beside
  exact ⟨kept, beside.root, beside.fds, beside.others⟩

theorem Tree.getnode_disk_costs {dirents : List Dirent} {slot : Nat} {entry : Entry} (depth : Nat)
    (tree : Tree k nodes) (short : (pathOf (front ++ [last])).length < 4096)
    (proper : ∀ part ∈ front ++ [last], Proper part)
    (found : treeNode k .root front = some parent)
    (there : DiskEntry vol k parent last dirents slot entry) :
    Costs room (getnode vol (depth + 2) (pathOf (front ++ [last]))) k
      (lookNeed (tablePage k) dirents.length slot + (0, 2))
      (lookNet (tablePage k) dirents.length slot) fun _ k' =>
        Beside k (k.node parent).dirents k' := by
  have need := lookNeed_pages k dirents.length slot
  have within := lookNet_le (tablePage k) dirents.length slot
  refine (getnode_costs (lookNeed (tablePage k) dirents.length slot).1
    (lookNeed (tablePage k) dirents.length slot).2 (lookNet (tablePage k) dirents.length slot).1
    (lookNet (tablePage k) dirents.length slot).2 short ?_ within ?_ ?_).cast rfl rfl
  · exact (add_le_add_iff_right (0, 2)).mp ((zero_add _).le.trans need)
  · intro k₁ quiet fds token
    have found₁ := (treeNode_congr quiet.root quiet.pages .root front).trans found
    have tree₁ := tree.congr quiet.root quiet.pages fun q member => quiet.heap q (tree.used q member)
    have table : tablePage k₁ = tablePage k := by rw [tablePage, tablePage, fds]
    have costs := tree₁.search_disk_costs depth proper found₁ (there.congr quiet.root quiet.pages)
      (token.trans (strtok_path proper))
    rw [table, Kernel.node_congr quiet.root quiet.pages] at costs
    refine costs.mono ?_
    intro p k' searched
    obtain ⟨kept, beside⟩ := searched
    refine ⟨kept, beside.root.trans quiet.root, beside.fds, ?_⟩
    intro q other used j
    rw [← quiet.pages]
    exact beside.others q other (quiet.heap q used) j
  · intro p k₂ heap beside
    exact ⟨beside.root, beside.fds, beside.others⟩

theorem treeNode_snoc {start : NodePtr} (found : treeNode k start front = some parent)
    (last : List Char) : treeNode k start (front ++ [last]) = childNode k parent last := by
  rw [treeNode] at found
  rw [treeNode, List.foldlM_append, found]
  simp

theorem Tree.getnode_ends (tree : Tree k nodes) (proper : ∀ part ∈ front ++ [last], Proper part)
    (ran : getnode vol (depth + 2) (pathOf (front ++ [last])) k = some (p, k')) :
    (∃ node, treeNode k .root (front ++ [last]) = some node) ∨
      ∃ parent dirents slot entry, treeNode k .root front = some parent ∧
        DiskEntry vol k parent last dirents slot entry := by
  rcases getnode_ran ran with ⟨short, enough⟩
  rcases tree.getnode_treeNode proper ran with ⟨parent, found⟩
  rcases tree.getnode_parent vol (depth + 1) short enough proper found with ⟨k₁, atLast, same⟩
  rw [ran] at same
  rcases Option.map_eq_some_iff.mp same.symm with ⟨⟨node, k₂⟩, navigated, _⟩
  by_cases ext2 : (k₁.node parent).fs = .ext2fs
  · have named := (proper last (List.mem_append_right _ List.mem_cons_self)).named
    rcases atLast.tree.navigate_ran named 256 0 atLast.inside ext2 navigated with
      ⟨directory, dirents, slot, entry, visits, enumerable, _, first⟩
    have there : DiskEntry vol k₁ parent last dirents slot entry :=
      ⟨ext2, directory, visits, enumerable, first⟩
    exact .inr ⟨parent, dirents, slot, entry, found,
      there.congr atLast.root.symm atLast.pages.symm⟩
  · rw [navigate_childNode ext2] at navigated
    rcases Option.map_eq_some_iff.mp navigated with ⟨node', child, _⟩
    rw [childNode_congr atLast.root atLast.pages] at child
    exact .inl ⟨node', (treeNode_snoc found last).trans child⟩

end Disk

section Canonical

variable {vol : Volume} {k k' : Kernel} {nodes : Nat → Prop} {start p : NodePtr} {depth : Nat}

/-- What `strtok` keeps has no delimiter in it. -/
def Cut (token : Option (List Char)) : Prop := ∀ text, token = some text → '/' ∉ text

theorem strtok_cut (path : List Char) : Cut (strtok path) := by
  intro text found slash
  rw [strtok] at found
  split at found
  · cases found
  · cases found
    rcases List.mem_map.mp ((List.dropWhile_sublist _).mem slash) with ⟨c, _, same⟩
    split at same
    · exact absurd same (by decide)
    · rename_i other
      exact other same

theorem Cut.next {token : Option (List Char)} (cut : Cut token) : Cut (strtokNext token) := by
  intro text found slash
  cases token with
  | none => cases found
  | some whole =>
      rw [strtokNext] at found
      split at found
      · cases found
      · cases found
        exact cut whole rfl (List.mem_of_mem_drop ((List.dropWhile_sublist _).mem slash))

theorem Cut.proper {token : Option (List Char)} {part : List Char} (cut : Cut token)
    (first : token.map cstr = some part) (named : part ≠ []) : Proper part := by
  rcases Option.map_eq_some_iff.mp first with ⟨text, there, rfl⟩
  refine ⟨named, fun slash => cut text there ((List.takeWhile_sublist _).mem slash), ?_⟩
  intro ended
  rw [cstr] at ended
  have kept := List.mem_takeWhile_imp ended
  simp at kept

theorem Tree.descend_parts {path : List Char} (rounds : Nat) {currentpath : List Char}
    (tree : Tree k nodes) (inside : InTree k nodes start) (cut : Cut k.token)
    (named : ∀ part, k.token.map cstr = some part → part ≠ [])
    (ran : descend (enumdir vol (getnode vol (depth + 1))) path rounds currentpath
      (k.token.map cstr) start k = some (p, k')) :
    ∃ parts, (∀ part ∈ parts, Proper part) ∧ currentpath ++ pathOf parts = path := by
  induction rounds generalizing currentpath start k nodes with
  | zero => cases ran
  | succ rounds ih =>
      by_cases done : currentpath = path
      · refine ⟨[], by simp, ?_⟩
        rw [pathOf, List.flatMap_nil, List.append_nil, done]
      · cases token : k.token.map cstr with
        | none =>
            rw [token, descend_lost done] at ran
            cases ran
        | some part =>
            have proper := cut.proper token (named part token)
            rw [token, descend_step _ _ done] at ran
            rcases bind_some ran with ⟨next, k₁, found, steps⟩
            rcases tree.navigate_grown proper.named 256 0 inside
              (fun j below => absurd below (Nat.not_lt_zero j)) found with ⟨nodes₁, grown, inside₁, _⟩
            have cut₁ : Cut k₁.token := by
              by_cases ext2 : (k.node start).fs = .ext2fs
              · rw [tree.navigate_token proper.named inside ext2 found]
                intro _ impossible
                cases impossible
              · rw [navigate_childNode ext2] at found
                rcases Option.map_eq_some_iff.mp found with ⟨_, _, same⟩
                cases same
                exact cut
            rw [modify_bind, get_bind] at steps
            have tree₂ := grown.tree.retoken (strtokNext k₁.token)
            rcases ih tree₂ ((InTree.congr rfl).mpr inside₁) cut₁.next
              (fun part there => strtokNext_part there) steps with ⟨rest, others, onward⟩
            refine ⟨part :: rest, ?_, ?_⟩
            · intro other member
              rcases List.mem_cons.mp member with rfl | member
              · exact proper
              · exact others other member
            · rw [← onward, pathOf_cons]
              simp

theorem Tree.getnode_parts {path : List Char} (tree : Tree k nodes)
    (ran : getnode vol (depth + 2) path k = some (p, k')) :
    ∃ parts, (∀ part ∈ parts, Proper part) ∧ pathOf parts = path := by
  rcases getnode_ran ran with ⟨short, enough⟩
  rcases getnode_entered vol (depth + 1) short enough with
    ⟨currentpath, pathpart, k₁, entered, same⟩
  rw [same] at ran
  rcases Option.map_eq_some_iff.mp ran with ⟨⟨node, k₂⟩, walked, _⟩
  have rootInside : InTree k₁ nodes .root := trivial
  exact (entered.tree tree).descend_parts _ rootInside (entered.token ▸ strtok_cut path)
    (fun part there => strtok_part (entered.token ▸ there)) walked

/-- The path comes by directories that no driver enumerates. -/
def QuietPath (k : Kernel) (path : List Char) : Prop :=
  ∃ parts, (∀ part ∈ parts, Proper part) ∧ pathOf parts = path ∧ (treeNode k .root parts).isSome

/-- The path ends at an entry of an ext2 directory. -/
structure DiskPath (vol : Volume) (k : Kernel) (path : List Char) (dirents : List Dirent)
    (slot : Nat) : Prop where
  short : path.length < 4096
  ends : ∃ front last parent entry, (∀ part ∈ front ++ [last], Proper part) ∧
    pathOf (front ++ [last]) = path ∧ treeNode k .root front = some parent ∧
      DiskEntry vol k parent last dirents slot entry

theorem Tree.getnode_path {path : List Char} (tree : Tree k nodes)
    (ran : getnode vol (depth + 2) path k = some (p, k')) :
    QuietPath k path ∨ ∃ dirents slot, DiskPath vol k path dirents slot := by
  rcases getnode_ran ran with ⟨short, _⟩
  rcases tree.getnode_parts ran with ⟨parts, proper, rfl⟩
  rcases List.eq_nil_or_concat' parts with rfl | ⟨front, last, rfl⟩
  · exact .inl ⟨[], proper, rfl, rfl⟩
  · rcases tree.getnode_ends proper ran with
      ⟨node, found⟩ | ⟨parent, dirents, slot, entry, found, there⟩
    · exact .inl ⟨front ++ [last], proper, rfl, Option.isSome_iff_exists.mpr ⟨node, found⟩⟩
    · exact .inr ⟨dirents, slot, short, front, last, parent, entry, proper, rfl, found, there⟩

end Canonical

section Repeated

variable {vol : Volume} {k k' : Kernel} {nodes : Nat → Prop} {parent parent' start : NodePtr}
  {depth : Nat} {front : List (List Char)}

theorem childNode_found {node : NodePtr} {part : List Char}
    (found : childNode k start part = some node) :
    (findName (k.pages (k.node start).dirents) part 256 0).map
      (NodePtr.dirent (k.node start).dirents) = some node := by
  rw [childNode] at found
  split at found
  · cases found
  · exact found

theorem Beside.treeNode (tree : Tree k nodes) (proper : ∀ part ∈ front, Proper part)
    (inside : InTree k nodes parent) (ext2 : (k.node parent).fs = .ext2fs)
    (beside : Beside k (k.node parent).dirents k') (started : InTree k nodes start)
    (alike : Alike (k.node start) (k'.node start)) (found : treeNode k start front = some parent)
    (found' : treeNode k' start front = some parent') :
    parent' = parent ∧ Alike (k.node parent) (k'.node parent) := by
  induction front generalizing start with
  | nil =>
      cases found
      cases found'
      exact ⟨rfl, alike⟩
  | cons part rest ih =>
      rw [Vfs.treeNode, List.foldlM_cons] at found found'
      rcases Option.bind_eq_some_iff.mp found with ⟨next, first, later⟩
      rcases Option.bind_eq_some_iff.mp found' with ⟨next', first', later'⟩
      have quiet := childNode_quiet first
      have elsewhere : (k.node start).dirents ≠ (k.node parent).dirents := by
        intro same
        rw [tree.owner started inside same] at quiet
        exact quiet ext2
      have page := beside.others _ elsewhere (tree.used _ (tree.page started))
      have named := (proper part List.mem_cons_self).named
      have nextInside := childNode_inTree named tree started first
      have names := findName_congr (fun j => (page j).name) part 256 0
      have place' := childNode_found first'
      rw [alike.dirents, names, childNode_found first] at place'
      cases place'
      have nextAlike : Alike (k.node next) (k'.node next) := by
        rcases childNode_some first with ⟨slot, rfl⟩
        exact page slot
      exact ih (fun other member => proper other (List.mem_cons_of_mem _ member)) nextInside nextAlike
        later later'

/-- The pages of the kernel heap that are marked used. -/
def usedPages (k : Kernel) : Nat := usedSlots HEAP_PAGES k.heap

/-- `getnode` of one path, called `n` times. -/
def lookups (vol : Volume) (depth : Nat) (path : List Char) (n : Nat) (k : Kernel) : Option Kernel :=
  runList (call vol depth) k (List.replicate n (.getnode path))

theorem usedPages_add (k : Kernel) : usedPages k + freePages k = HEAP_PAGES := by
  rw [usedPages, freePages, usedSlots_add_freeSlots]

theorem lookups_one {path : List Char} (ran : lookups vol depth path 1 k = some k') :
    ∃ p, getnode vol (depth + 2) path k = some (p, k') := by
  rw [lookups, List.replicate_one, runList] at ran
  rcases Option.bind_eq_some_iff.mp ran with ⟨k₁, called, same⟩
  cases same
  rw [call] at called
  rcases Option.map_eq_some_iff.mp called with ⟨⟨p, _⟩, returned, rfl⟩
  exact ⟨p, returned⟩

theorem lookups_succ (vol : Volume) (depth : Nat) (path : List Char) (n : Nat) (k : Kernel) :
    lookups vol depth path (n + 1) k =
      (getnode vol (depth + 2) path k).bind fun (_, k₁) => lookups vol depth path n k₁ := by
  rw [lookups, List.replicate_succ, runList, call]
  cases getnode vol (depth + 2) path k with
  | none => rfl
  | some result => rfl

theorem lookups_quiet {parts : List (List Char)} {node : NodePtr}
    (short : (pathOf parts).length < 4096) (proper : ∀ part ∈ parts, Proper part)
    (found : treeNode k .root parts = some node) (enough : 2 ≤ freePages k) (n : Nat) :
    ∃ k', lookups vol depth (pathOf parts) n k = some k' ∧ freePages k' = freePages k := by
  induction n generalizing k with
  | zero => exact ⟨k, rfl, rfl⟩
  | succ n ih =>
      have need : ((0, 2) : Int × Int) ≤ room k := by
        rw [le_room]
        omega
      rcases (getnode_quiet_costs vol (depth + 1) short proper found).enough need with
        ⟨p, k₁, ran, left, root, pages, _⟩
      have level : freePages k₁ = freePages k := by
        have same : (freePages k₁ : Int) = freePages k - 0 := congrArg Prod.snd left
        omega
      rw [← level] at enough
      rcases ih ((treeNode_congr root pages .root parts).trans found) enough with ⟨k', rest, same⟩
      refine ⟨k', ?_, same.trans level⟩
      rw [lookups_succ, ran]
      exact rest

/-- A path that ends in an ext2 directory costs pages again when it is looked up again. -/
theorem Tree.getnode_again {last : List Char} {k₁ k₂ : Kernel} {p p' : NodePtr}
    {dirents : List Dirent} {slot : Nat} {entry : Entry} (tree : Tree k nodes)
    (proper : ∀ part ∈ front ++ [last], Proper part)
    (found : treeNode k .root front = some parent)
    (there : DiskEntry vol k parent last dirents slot entry)
    (first : getnode vol (depth + 2) (pathOf (front ++ [last])) k = some (p, k₁))
    (second : getnode vol (depth + 2) (pathOf (front ++ [last])) k₁ = some (p', k₂)) :
    freePages k₂ < freePages k₁ := by
  rcases tree.getnode_grown first with ⟨nodes₁, grown, _⟩
  rcases getnode_ran first with ⟨short, _⟩
  rcases grown.tree.getnode_ends proper second with ⟨node, quiet⟩ | ⟨parent', dirents', slot', entry',
    found', there'⟩
  · -- the way to the directory is as it was, and the driver still enumerates it
    rcases grown.tree.getnode_treeNode proper second with ⟨parent', found'⟩
    have frontProper (part : List Char) (member : part ∈ front) : Proper part :=
      proper part (List.mem_append_left _ member)
    have rootInside : InTree k nodes .root := trivial
    have inside := treeNode_inTree frontProper tree rootInside found
    rcases (tree.getnode_disk_costs depth short proper found there).of_some first with
      ⟨_, _, beside⟩
    have rootAlike : Alike (k.node .root) (k₁.node .root) := by
      change Alike k.root k₁.root
      rw [beside.root]
      exact Alike.refl _
    rcases beside.treeNode tree frontProper inside there.ext2 rootInside rootAlike found found' with
      ⟨rfl, alike⟩
    have child := (treeNode_snoc found' last).symm.trans quiet
    exact absurd (alike.fs.trans there.ext2) (childNode_quiet child)
  · rcases (grown.tree.getnode_disk_costs depth short proper found' there').of_some second with
      ⟨_, left, _⟩
    have nonneg := tablePage_nonneg k₁
    have lost : (0 : Int) < (slot' + 1) * (1 + 2 * dirents'.length) := by positivity
    have pages : (freePages k₂ : Int) = freePages k₁ -
        (tablePage k₁ + (slot' + 1) * (1 + 2 * dirents'.length)) := congrArg Prod.snd left
    omega

/-- For every state, every path and every number of calls but none: one call more leaves as many
pages of the heap used as there were, if and only if the path fits in a page, two pages are free,
and the path comes by no ext2 directory. -/
theorem lookups_balanced_iff (vol : Volume) (k : Kernel) (nodes : Nat → Prop)
    (parts : List (List Char)) (depth : Nat) (tree : Tree k nodes)
    (proper : ∀ part ∈ parts, Proper part) :
    (∀ n ≥ 1, ∃ k₁ k₂, lookups vol depth (pathOf parts) n k = some k₁ ∧
        lookups vol depth (pathOf parts) (n + 1) k = some k₂ ∧ usedPages k₂ = usedPages k₁) ↔
      (pathOf parts).length < 4096 ∧ 2 ≤ freePages k ∧ (treeNode k .root parts).isSome := by
  constructor
  · intro balanced
    rcases balanced 1 le_rfl with ⟨k₁, k₂, one, two, level⟩
    rcases lookups_one one with ⟨p, first⟩
    rw [lookups_succ, first, Option.bind_some] at two
    rcases lookups_one two with ⟨p', second⟩
    rcases getnode_ran first with ⟨short, enough⟩
    rw [le_room] at enough
    refine ⟨short, by omega, ?_⟩
    rcases List.eq_nil_or_concat' parts with rfl | ⟨front, last, rfl⟩
    · rfl
    · rcases tree.getnode_ends proper first with
        ⟨node, found⟩ | ⟨parent, dirents, slot, entry, found, there⟩
      · rw [found]
        rfl
      · have fewer := tree.getnode_again proper found there first second
        have total₁ := usedPages_add k₁
        have total₂ := usedPages_add k₂
        omega
  · intro ⟨short, enough, quiet⟩ n _
    rcases Option.isSome_iff_exists.mp quiet with ⟨node, found⟩
    rcases lookups_quiet short proper found enough n with ⟨k₁, ran₁, level₁⟩
    rcases lookups_quiet short proper found enough (n + 1) with ⟨k₂, ran₂, level₂⟩
    have total₁ := usedPages_add k₁
    have total₂ := usedPages_add k₂
    exact ⟨k₁, k₂, ran₁, ran₂, by omega⟩

theorem device_lookups_balanced :
    freePages mounted = 1020 ∧ ∀ n ≥ 1, ∃ k₁ k₂,
      lookups (smallVolume packedBlock) 0 (pathOf ["dev".toList, "nvme5".toList]) n mounted = some k₁ ∧
      lookups (smallVolume packedBlock) 0 (pathOf ["dev".toList, "nvme5".toList]) (n + 1) mounted =
        some k₂ ∧ usedPages k₂ = usedPages k₁ := by
  have free : freePages mounted = 1020 := freeSlots_from HEAP_PAGES 4
  have enough : 2 ≤ freePages mounted := by
    rw [free]
    decide
  exact ⟨free, (lookups_balanced_iff (smallVolume packedBlock) mounted (· < 4)
    ["dev".toList, "nvme5".toList] 0 mounted_boot.tree (by decide)).mpr ⟨by decide, enough, by decide⟩⟩

theorem file_lookups_unbalanced :
    ¬ ∀ (vol : Volume) (boot k : Kernel) (nodes : Nat → Prop) (parts : List (List Char))
      (target : Target) (depth : Nat), Boot boot nodes → Run (call vol depth) anyStep boot k →
        (∀ part ∈ parts, Proper part) → resolve vol k (.node .root) parts = some target →
          ∀ n ≥ 1, ∃ k₁ k₂, lookups vol depth (pathOf parts) n k = some k₁ ∧
            lookups vol depth (pathOf parts) (n + 1) k = some k₂ ∧ usedPages k₂ = usedPages k₁ := by
  intro balanced
  have chain : resolve (smallVolume packedBlock) mounted (.node .root) ["mnt".toList, "a".toList] =
      some (.file ⟨['a'], 12, false⟩) := by
    decide
  rcases balanced (smallVolume packedBlock) mounted mounted (· < 4) ["mnt".toList, "a".toList] _ 0
    mounted_boot .refl (by decide) chain 1 le_rfl with ⟨k₁, k₂, one, two, level⟩
  have used₁ : (lookups (smallVolume packedBlock) 0 (pathOf ["mnt".toList, "a".toList]) 1 mounted).map
      usedPages = some 8 := by
    decide +kernel
  have used₂ : (lookups (smallVolume packedBlock) 0 (pathOf ["mnt".toList, "a".toList]) 2 mounted).map
      usedPages = some 11 := by
    decide +kernel
  rw [one] at used₁
  rw [two] at used₂
  cases (used₂.symm.trans (congrArg some level)).trans used₁

end Repeated

end TitorOS.Barrel.Vfs
