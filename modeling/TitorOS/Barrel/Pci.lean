import TitorOS.Lib.Fill
import TitorOS.Lib.Word
import Mathlib.Data.List.ProdSigma

/-! PCI discovery of `drivers/pci.c`: `init_pci` lists the devices that answer, and
`detect_nvme` looks for an NVMe controller among them. -/

namespace TitorOS.Barrel.Pci

open TitorOS.Lib

/-- The dword in a register of a function of a device on a bus, all ones where none answers. -/
abbrev ConfigSpace := Nat → Nat → Nat → Nat → UInt32

/-- `CONFIG_DATA` with this word in `CONFIG_ADDRESS`. Bit 31 enables the access; without it
nothing answers on the port. -/
def configData (space : ConfigSpace) (address : UInt32) : UInt32 :=
  if address < 0x80000000 then 0xFFFFFFFF
  else space (address.toNat / 2 ^ 16 % 2 ^ 8) (address.toNat / 2 ^ 11 % 2 ^ 5)
    (address.toNat / 2 ^ 8 % 2 ^ 3) (address.toNat / 2 ^ 2 % 2 ^ 6)

def pciread (space : ConfigSpace) (address : UInt32) : UInt32 := configData space address

def getaddress (bus device function offset : UInt8) : UInt32 :=
  bus.toUInt32 <<< 16 ||| device.toUInt32 <<< 11 ||| function.toUInt32 <<< 8 |||
    (offset &&& 0xFC).toUInt32 ||| 0x80000000

/-- `stores` are the stores into `pci_devices`, with the index of each. -/
structure Scan where
  noPciDevices : UInt8
  stores : List (Nat × UInt32)

def probe (space : ConfigSpace) (bus device : UInt8) (scan : Scan) : Scan :=
  let address := getaddress bus device 0 0
  if pciread space address ≠ 0xFFFFFFFF then
    { noPciDevices := scan.noPciDevices + 1
      stores := scan.stores ++ [(scan.noPciDevices.toNat, address)] }
  else scan

def scanBus (space : ConfigSpace) (scan : Scan) (bus : Nat) : Scan :=
  (List.range 32).foldl (fun scan device => probe space (.ofNat bus) (.ofNat device) scan) scan

def scanBuses (space : ConfigSpace) : Scan := (List.range 255).foldl (scanBus space) ⟨0, []⟩

def initPci (space : ConfigSpace) : List (Nat × UInt32) :=
  let scan := scanBuses space
  scan.stores ++ [(scan.noPciDevices.toNat, 0xFFFFFFFF)]

/-- `devices` is the memory from `pci_devices` on. `none` stands for a search that never ends. -/
def detectLoop (space : ConfigSpace) (devices : Nat → UInt32) :
    Nat → Nat → Option (Except String UInt32)
  | 0, _ => none
  | fuel + 1, i =>
      let nvme := devices i
      if pciread space (nvme + 0x8) >>> 16 = 0x0108 then some (.ok nvme)
      else if nvme ≠ 0xFFFFFFFF then detectLoop space devices fuel (i + 1)
      else some (.error "NO NVME DRIVE DETECTED")

def detectNvme (space : ConfigSpace) (devices : Nat → UInt32) : Option (Except String UInt32) :=
  detectLoop space devices (2 ^ 32) 0

/-! What it should find. -/

def slots (buses : Nat) : List (Nat × Nat) := List.range buses ×ˢ List.range 32

def responds (space : ConfigSpace) (slot : Nat × Nat) : Bool :=
  space slot.1 slot.2 0 0 ≠ 0xFFFFFFFF

def nvmeClass (space : ConfigSpace) (slot : Nat × Nat) : Bool :=
  space slot.1 slot.2 0 2 >>> 16 = 0x0108

def isNvme (space : ConfigSpace) (slot : Nat × Nat) : Bool :=
  responds space slot && nvmeClass space slot

/-- Of function 0 and its register 0. -/
def slotAddress (slot : Nat × Nat) : UInt32 := .ofNat (2 ^ 31 + slot.1 * 2 ^ 16 + slot.2 * 2 ^ 11)

def outcome : Option (Nat × Nat) → Except String UInt32
  | some slot => .ok (slotAddress slot)
  | none => .error "NO NVME DRIVE DETECTED"

/-- `init_pci` stays in `pci_devices[32]`, and `detect_nvme` then returns the first NVMe
controller of all 256 buses, or panics where there is none. -/
structure Discovers (space : ConfigSpace) (memory : Nat → UInt32) : Prop where
  inside : ∀ store ∈ initPci space, store.1 < 32
  detects : detectNvme space (storeAll (initPci space) memory) =
    some (outcome ((slots 256).find? (isNvme space)))

/-- There is room for the sentinel, and a controller on the last bus is not the only one. -/
structure Discoverable (space : ConfigSpace) : Prop where
  few : ((slots 255).filter (responds space)).length < 32
  lower : ∀ slot ∈ slots 256, isNvme space slot = true → ∃ other ∈ slots 255, isNvme space other = true

theorem mem_slots {buses : Nat} {slot : Nat × Nat} :
    slot ∈ slots buses ↔ slot.1 < buses ∧ slot.2 < 32 := by
  rw [slots, List.mem_product, List.mem_range, List.mem_range]

theorem shiftLeft_toNat (n : Nat) (k : UInt32) (byte : n < 256) (room : k.toNat ≤ 24) :
    ((UInt8.ofNat n).toUInt32 <<< k).toNat = 2 ^ k.toNat * n := by
  have bound : 2 ^ k.toNat * n < 2 ^ 32 := by
    calc
      2 ^ k.toNat * n < 2 ^ k.toNat * 2 ^ 8 := Nat.mul_lt_mul_of_pos_left byte (Nat.two_pow_pos _)
      _ ≤ 2 ^ 24 * 2 ^ 8 := Nat.mul_le_mul_right _ (Nat.pow_le_pow_right (by decide) room)
      _ = 2 ^ 32 := by decide
  have shift : k.toNat % 32 = k.toNat := Nat.mod_eq_of_lt (by omega)
  rw [UInt32.toNat_shiftLeft, UInt8.toNat_toUInt32, UInt8.toNat_ofNat', Nat.mod_eq_of_lt byte,
    shift, Nat.shiftLeft_eq, Nat.mul_comm, Nat.mod_eq_of_lt bound]

section address

variable {slot : Nat × Nat} (bus : slot.1 < 256) (device : slot.2 < 32)
include bus device

theorem slotAddress_toNat : (slotAddress slot).toNat = 2 ^ 31 + slot.1 * 2 ^ 16 + slot.2 * 2 ^ 11 := by
  rw [slotAddress, UInt32.toNat_ofNat', Nat.mod_eq_of_lt]
  omega

theorem getaddress_slot : getaddress (.ofNat slot.1) (.ofNat slot.2) 0 0 = slotAddress slot := by
  have high : ((UInt8.ofNat slot.1).toUInt32 <<< 16).toNat = 2 ^ 16 * slot.1 :=
    shiftLeft_toNat slot.1 16 bus (by decide)
  have low : ((UInt8.ofNat slot.2).toUInt32 <<< 11).toNat = 2 ^ 11 * slot.2 :=
    shiftLeft_toNat slot.2 11 (by omega) (by decide)
  have first : 2 ^ 16 * slot.1 ||| 2 ^ 11 * slot.2 = 2 ^ 16 * slot.1 + 2 ^ 11 * slot.2 :=
    (Nat.two_pow_add_eq_or_of_lt (by omega) slot.1).symm
  have second : 2 ^ 31 * 1 ||| (2 ^ 16 * slot.1 + 2 ^ 11 * slot.2) =
      2 ^ 31 * 1 + (2 ^ 16 * slot.1 + 2 ^ 11 * slot.2) :=
    (Nat.two_pow_add_eq_or_of_lt (by omega) 1).symm
  apply UInt32.toNat_inj.mp
  have zero : (0 : UInt8).toUInt32 <<< 8 = 0 := rfl
  have offset : ((0 : UInt8) &&& 0xFC).toUInt32 = 0 := rfl
  rw [getaddress, zero, offset, UInt32.or_zero, UInt32.or_zero, UInt32.toNat_or, UInt32.toNat_or,
    high, low, first, Nat.or_comm, show (0x80000000 : UInt32).toNat = 2 ^ 31 * 1 from rfl, second,
    slotAddress_toNat bus device]
  omega

theorem pciread_slot (space : ConfigSpace) (register : Nat) (inside : register < 2 ^ 6) :
    pciread space (slotAddress slot + .ofNat (4 * register)) = space slot.1 slot.2 0 register := by
  have value := slotAddress_toNat bus device
  have sum : (slotAddress slot + .ofNat (4 * register)).toNat =
      2 ^ 31 + slot.1 * 2 ^ 16 + slot.2 * 2 ^ 11 + 4 * register := by
    have offset : (UInt32.ofNat (4 * register)).toNat = 4 * register := by
      rw [UInt32.toNat_ofNat', Nat.mod_eq_of_lt (by omega)]
    rw [toNat_add_of_lt _ _ (by omega), value, offset]
  have enabled : ¬ slotAddress slot + .ofNat (4 * register) < 0x80000000 := by
    rw [UInt32.lt_iff_toNat_lt, sum]
    simp only [UInt32.reduceToNat]
    omega
  rw [pciread, configData, if_neg enabled, sum]
  congr 1 <;> omega

end address

section scan

variable {space : ConfigSpace}

/-- The stores of values one after another, with an index that is kept in a byte. -/
def numbered : UInt8 → List UInt32 → List (Nat × UInt32)
  | _, [] => []
  | count, value :: rest => (count.toNat, value) :: numbered (count + 1) rest

theorem numbered_append (count : UInt8) (first second : List UInt32) :
    numbered count (first ++ second) =
      numbered count first ++ numbered (count + .ofNat first.length) second := by
  induction first generalizing count with
  | nil => exact congrArg (numbered · second) (UInt8.add_zero count).symm
  | cons value rest ih =>
      have next : count + 1 + .ofNat rest.length = count + .ofNat (rest.length + 1) := by
        rw [UInt8.ofNat_add, UInt8.add_assoc, UInt8.add_comm 1]
        rfl
      rw [List.cons_append, numbered, numbered, ih, List.length_cons, next, List.cons_append]

theorem numbered_storeList (count : UInt8) (values : List UInt32) (memory : Nat → UInt32)
    (room : count.toNat + values.length ≤ 2 ^ 8) :
    storeAll (numbered count values) memory = storeList count.toNat values memory := by
  induction values generalizing count memory with
  | nil => rfl
  | cons value rest ih =>
      rw [List.length_cons] at room
      rw [numbered, storeList, storeAll, List.foldl_cons]
      cases rest with
      | nil => rfl
      | cons second rest =>
          rw [List.length_cons] at room
          have next : (count + 1).toNat = count.toNat + 1 := by
            rw [UInt8.toNat_add, Nat.mod_eq_of_lt]
            · rfl
            · rw [UInt8.toNat_one]
              omega
          have later := ih (count + 1) (Function.update memory count.toNat value)
            (by rw [next, List.length_cons]; omega)
          rw [next] at later
          exact later

theorem numbered_index (count : UInt8) (values : List UInt32) (k : Nat) (inside : k < values.length) :
    ((numbered count values)[k]?).map Prod.fst = some ((count.toNat + k) % 2 ^ 8) := by
  induction values generalizing count k with
  | nil => exact absurd inside k.not_lt_zero
  | cons value rest ih =>
      rw [List.length_cons] at inside
      cases k with
      | zero => exact congrArg some (Nat.mod_eq_of_lt count.toNat_lt).symm
      | succ k =>
          rw [numbered, List.getElem?_cons_succ, ih (count + 1) k (by omega), UInt8.toNat_add,
            UInt8.toNat_one, Nat.mod_add_mod, Nat.add_assoc, Nat.add_comm 1 k]

theorem numbered_length (count : UInt8) (values : List UInt32) :
    (numbered count values).length = values.length := by
  induction values generalizing count with
  | nil => rfl
  | cons value rest ih => rw [numbered, List.length_cons, ih, List.length_cons]

theorem numbered_inside_iff (values : List UInt32) :
    (∀ store ∈ numbered 0 values, store.1 < 32) ↔ values.length ≤ 32 := by
  constructor
  · intro inside
    by_contra more
    have here := numbered_index 0 values 32 (by omega)
    rw [Option.map_eq_some_iff] at here
    obtain ⟨store, found, index⟩ := here
    have below := inside store (List.mem_of_getElem? found)
    rw [index] at below
    exact absurd below (by decide)
  · intro few store member
    obtain ⟨k, within, same⟩ := List.getElem_of_mem member
    have bound := within
    rw [numbered_length] at bound
    have here := numbered_index 0 values k bound
    rw [List.getElem?_eq_getElem within, same] at here
    have index : store.1 = (0 + k) % 2 ^ 8 := Option.some.inj here
    omega

theorem probe_slot (slot : Nat × Nat) (bus : slot.1 < 256) (device : slot.2 < 32) (scan : Scan) :
    probe space (.ofNat slot.1) (.ofNat slot.2) scan =
      if responds space slot then
        ⟨scan.noPciDevices + 1, scan.stores ++ [(scan.noPciDevices.toNat, slotAddress slot)]⟩
      else scan := by
  have read := pciread_slot bus device space 0 (by decide)
  have same : slotAddress slot + .ofNat (4 * 0) = slotAddress slot := UInt32.add_zero _
  rw [same] at read
  rw [probe, getaddress_slot bus device, read]
  simp only [responds, decide_eq_true_eq]

theorem probes_stores (list : List (Nat × Nat)) (inside : ∀ slot ∈ list, slot.1 < 256 ∧ slot.2 < 32)
    (scan : Scan) :
    list.foldl (fun scan slot => probe space (.ofNat slot.1) (.ofNat slot.2) scan) scan =
      ⟨scan.noPciDevices + .ofNat (list.filter (responds space)).length,
        scan.stores ++
          numbered scan.noPciDevices ((list.filter (responds space)).map slotAddress)⟩ := by
  induction list generalizing scan with
  | nil => simp [numbered]
  | cons slot rest ih =>
      obtain ⟨bus, device⟩ := inside slot List.mem_cons_self
      rw [List.foldl_cons, probe_slot slot bus device,
        ih (fun other member => inside other (List.mem_cons_of_mem _ member))]
      by_cases answers : responds space slot = true
      · rw [if_pos answers, List.filter_cons_of_pos answers, List.map_cons, numbered,
          List.length_cons, UInt8.ofNat_add, UInt8.add_assoc, UInt8.add_comm 1]
        simp
      · rw [if_neg answers, List.filter_cons_of_neg answers]

theorem foldl_scanBus (buses : List Nat) (scan : Scan) :
    buses.foldl (scanBus space) scan = (buses ×ˢ List.range 32).foldl
      (fun scan slot => probe space (.ofNat slot.1) (.ofNat slot.2) scan) scan := by
  induction buses generalizing scan with
  | nil => rfl
  | cons bus rest ih =>
      rw [List.foldl_cons, ih, List.product_cons, List.foldl_append, List.foldl_map]
      rfl

/-- What `init_pci` stores: the addresses of the devices that answer, then the sentinel. -/
def listed (space : ConfigSpace) : List UInt32 :=
  ((slots 255).filter (responds space)).map slotAddress ++ [0xFFFFFFFF]

theorem initPci_numbered (space : ConfigSpace) : initPci space = numbered 0 (listed space) := by
  have inside : ∀ slot ∈ slots 255, slot.1 < 256 ∧ slot.2 < 32 := by
    intro slot member
    obtain ⟨bus, device⟩ := mem_slots.mp member
    exact ⟨by omega, device⟩
  rw [initPci, scanBuses, foldl_scanBus, ← slots, probes_stores _ inside, listed, numbered_append, List.length_map]
  rfl

theorem detectLoop_find (list : List (Nat × Nat)) (devices : Nat → UInt32) (fuel i : Nat)
    (inside : ∀ slot ∈ list, slot.1 < 256 ∧ slot.2 < 32)
    (entries : ∀ k ≤ list.length,
      (list.map slotAddress ++ [0xFFFFFFFF])[k]? = some (devices (i + k)))
    (enough : list.length < fuel) :
    detectLoop space devices fuel i = some (outcome (list.find? (nvmeClass space))) := by
  induction list generalizing i fuel with
  | nil =>
      obtain ⟨fuel, rfl⟩ := Nat.exists_eq_succ_of_ne_zero (Nat.ne_zero_of_lt enough)
      have sentinel : devices i = 0xFFFFFFFF := (Option.some.inj (entries 0 le_rfl)).symm
      -- the probe of the sentinel wraps to address 7, which does not enable the access
      have probed : pciread space (0xFFFFFFFF + 0x8) = 0xFFFFFFFF := by
        rw [pciread, configData, if_pos (by decide)]
      rw [detectLoop, sentinel]
      simp only [probed]
      rfl
  | cons slot rest ih =>
      obtain ⟨fuel, rfl⟩ := Nat.exists_eq_succ_of_ne_zero (Nat.ne_zero_of_lt enough)
      obtain ⟨bus, device⟩ := inside slot List.mem_cons_self
      have here : devices i = slotAddress slot := (Option.some.inj (entries 0 (Nat.zero_le _))).symm
      have read : pciread space (slotAddress slot + 0x8) = space slot.1 slot.2 0 2 :=
        pciread_slot bus device space 2 (by decide)
      have address : slotAddress slot ≠ 0xFFFFFFFF := by
        intro same
        have value := slotAddress_toNat bus device
        rw [same] at value
        simp only [UInt32.reduceToNat] at value
        omega
      rw [detectLoop, here]
      simp only [read]
      by_cases nvme : space slot.1 slot.2 0 2 >>> 16 = 0x0108
      · rw [if_pos nvme, List.find?_cons_of_pos (by simpa [nvmeClass] using nvme)]
        rfl
      · rw [if_neg nvme, if_pos address, List.find?_cons_of_neg (by simpa [nvmeClass] using nvme)]
        apply ih
        · exact fun other member => inside other (List.mem_cons_of_mem _ member)
        · intro k within
          have later := entries (k + 1) (by rw [List.length_cons]; omega)
          rw [Nat.add_assoc, Nat.add_comm 1 k]
          exact later
        · rw [List.length_cons] at enough
          omega

theorem find?_responding (list : List (Nat × Nat)) :
    (list.filter (responds space)).find? (nvmeClass space) = list.find? (isNvme space) := by
  rw [List.find?_filter]
  congr 1
  funext slot
  simp [isNvme]

theorem listed_length (space : ConfigSpace) :
    (listed space).length = ((slots 255).filter (responds space)).length + 1 := by
  simp [listed]

theorem initPci_inside_iff (space : ConfigSpace) :
    (∀ store ∈ initPci space, store.1 < 32) ↔
      ((slots 255).filter (responds space)).length < 32 := by
  rw [initPci_numbered, numbered_inside_iff, listed_length]
  exact Nat.succ_le_iff

theorem detectNvme_listed (memory : Nat → UInt32)
    (few : ((slots 255).filter (responds space)).length < 32) :
    detectNvme space (storeAll (initPci space) memory) =
      some (outcome ((slots 255).find? (isNvme space))) := by
  have size := listed_length space
  have stored : storeAll (initPci space) memory = storeList 0 (listed space) memory := by
    rw [initPci_numbered]
    exact numbered_storeList 0 _ memory (by rw [UInt8.toNat_zero]; omega)
  rw [detectNvme, stored, ← find?_responding]
  apply detectLoop_find
  · intro slot member
    obtain ⟨bus, device⟩ := mem_slots.mp (List.mem_of_mem_filter member)
    exact ⟨by omega, device⟩
  · intro k within
    exact storeList_inside 0 k (listed space) memory (by omega)
  · omega

end scan

theorem slots_last : slots 256 = slots 255 ++ [255] ×ˢ List.range 32 := by
  have last : List.range 256 = List.range 255 ++ [255] := List.range_succ
  rw [slots, slots, last]
  exact List.flatMap_append

/-- The search of the scanned buses is that of all buses unless the only controllers are on
the last. -/
theorem find?_scanned_iff (space : ConfigSpace) :
    outcome ((slots 255).find? (isNvme space)) = outcome ((slots 256).find? (isNvme space)) ↔
      ∀ slot ∈ slots 256, isNvme space slot = true → ∃ other ∈ slots 255, isNvme space other = true := by
  cases found : (slots 255).find? (isNvme space) with
  | some first =>
      rw [slots_last, List.find?_append, found]
      refine iff_of_true rfl fun _ _ _ => ⟨first, ?_, ?_⟩
      · exact List.mem_of_find?_eq_some found
      · exact List.find?_some found
  | none =>
      have absent := List.find?_eq_none.mp found
      constructor
      · intro same slot member nvme
        cases all : (slots 256).find? (isNvme space) with
        | none => exact absurd nvme (List.find?_eq_none.mp all slot member)
        | some other =>
            rw [all] at same
            cases same
      · intro lower
        have all : (slots 256).find? (isNvme space) = none := by
          apply List.find?_eq_none.mpr
          intro slot member nvme
          obtain ⟨other, scanned, controller⟩ := lower slot member nvme
          exact absent other scanned controller
        rw [all]

/-- Discovery does what it should exactly if fewer than 32 devices answer on the buses that
are scanned, 0 to 254, and a controller on bus 255 is not the only one. -/
theorem discovers_iff (space : ConfigSpace) (memory : Nat → UInt32) :
    Discovers space memory ↔ Discoverable space := by
  have room := initPci_inside_iff space
  constructor
  · rintro ⟨inside, detects⟩
    have few := room.mp inside
    rw [detectNvme_listed memory few] at detects
    exact ⟨few, (find?_scanned_iff space).mp (Option.some.inj detects)⟩
  · rintro ⟨few, lower⟩
    refine ⟨room.mpr few, ?_⟩
    rw [detectNvme_listed memory few, (find?_scanned_iff space).mpr lower]

def lastBus : ConfigSpace := fun bus device function register =>
  if bus = 255 ∧ device = 0 ∧ function = 0 then if register = 2 then 0x01080200 else 0x1234
  else 0xFFFFFFFF

def fullBus : ConfigSpace := fun bus _ function _ =>
  if bus = 0 ∧ function = 0 then 0x1234 else 0xFFFFFFFF

/-- The controller on bus 255 is not found; with a full bus the sentinel is stored behind the
array. -/
theorem lastBus_missed_fullBus_escapes :
    ¬ Discovers lastBus (fun _ => 0) ∧ ¬ Discovers fullBus (fun _ => 0) := by
  constructor
  · rintro ⟨inside, detects⟩
    rw [detectNvme_listed _ ((initPci_inside_iff lastBus).mp inside)] at detects
    have lower := (find?_scanned_iff lastBus).mp (Option.some.inj detects)
    obtain ⟨other, scanned, controller⟩ := lower (255, 0) (mem_slots.mpr (by decide)) (by decide)
    have bus := (mem_slots.mp scanned).1
    have elsewhere : other.1 ≠ 255 := by omega
    have silent : responds lastBus other = false := by simp [responds, lastBus, elsewhere]
    rw [isNvme, silent] at controller
    cases controller
  · rintro ⟨inside, _⟩
    have few := (initPci_inside_iff fullBus).mp inside
    have answers : ((slots 255).filter (responds fullBus)).length = 32 := by decide +kernel
    omega

end TitorOS.Barrel.Pci
