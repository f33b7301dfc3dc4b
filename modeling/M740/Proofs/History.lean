import M740.Proofs.Rom

/-!
# The memory map over histories

What a bus answers is settled by the transactions before: RAM holds what was last written to it,
ROM what the last image that reaches down to the address put there, and the devices have served the
accesses to their registers, in order, and nothing else (`Bus.performAll_eq_history`). The
addresses of the map are written out here once more, as the lines of the bus carry them.
-/

namespace M740

/-- What can be done with a bus. -/
inductive Transaction where
  | read (address : Word)
  | write (address : Word) (value : Byte)
  | peek (address : Word)
  /-- Installs a ROM image. -/
  | install (image : List Byte)
  deriving DecidableEq, Repr

inductive Reply where
  | byte (value : Byte)
  /-- So many bytes of an image were installed. -/
  | installed (size : Nat)
  | nothing
  deriving DecidableEq, Repr

/-- An access to a device register. -/
inductive DeviceAccess where
  | read (register : DeviceRegister)
  | write (register : DeviceRegister) (value : Byte)
  deriving DecidableEq, Repr

namespace Bus

variable {σ : Type} [Device σ]

def perform (b : Bus σ) : Transaction → Reply × Bus σ
  | .read a =>
    let (value, b) := b.read (Address.ofWord a)
    (.byte value, b)
  | .write a value => (.nothing, b.write (Address.ofWord a) value)
  | .peek a => (.byte (b.peek (Address.ofWord a)), b)
  | .install image => (.installed (installedSize image), b.install image)

def performAll (b : Bus σ) : List Transaction → List Reply × Bus σ
  | [] => ([], b)
  | t :: rest =>
    let (reply, b) := b.perform t
    let (replies, b) := performAll b rest
    (reply :: replies, b)

end Bus

/-! ### What a history says

A history is the list of all transactions so far, the oldest first. -/

namespace History

/-- The address that a word leads to, thirteen lines wide. -/
def wrapped (a : Word) : Nat := a.toNat % 0x2000

/-- The byte that the transaction writes at a RAM address. -/
def written? (address : Nat) : Transaction → Option Byte
  | .write a value => if wrapped a = address then some value else none
  | .read _ | .peek _ | .install _ => none

/-- The byte that the transaction installs at a ROM address: the first 4096 bytes of the image, or
all if there are fewer, end at the top of the address space. -/
def loaded? (address : Nat) : Transaction → Option Byte
  | .install image =>
    let size := min image.length 0x1000
    if 0x2000 - size ≤ address then image[address - (0x2000 - size)]? else none
  | .read _ | .write .. | .peek _ => none

/-- The last of the bytes that the transactions of a history put into a place; zero if none did. -/
def latest (byte? : Transaction → Option Byte) (history : List Transaction) : Byte :=
  (history.filterMap byte?).getLast?.getD 0

/-- What a look at an address shows. -/
def shown (history : List Transaction) (address : Nat) : Byte :=
  if address ≤ 0x5F then latest (written? address) history
  else if 0x1000 ≤ address then latest (loaded? address) history
  else 0xFF

/-- The device register at an address. -/
def register? (address : Nat) : Option DeviceRegister :=
  if h : 0xD0 ≤ address ∧ address ≤ 0xDF then
    some ⟨.r, address - 0xD0, by simp only [Bank.size]; omega⟩
  else if h : 0xE0 ≤ address ∧ address ≤ 0xE9 then
    some ⟨.p, address - 0xE0, by simp only [Bank.size]; omega⟩
  else if h : 0xF9 ≤ address ∧ address ≤ 0xFF then
    some ⟨.timers, address - 0xF9, by simp only [Bank.size]; omega⟩
  else none

def access? : Transaction → Option DeviceAccess
  | .read a => (register? (wrapped a)).map .read
  | .write a value => (register? (wrapped a)).map fun register => .write register value
  | .peek _ | .install _ => none

/-- The accesses that the devices see. -/
def accesses (history : List Transaction) : List DeviceAccess := history.filterMap access?

section
variable {σ : Type} [Device σ]

/-- The devices after an access. -/
def serve (devices : σ) : DeviceAccess → σ
  | .read register => (Device.read devices register).2
  | .write register value => Device.write devices register value

/-- The devices after a history. -/
def served (devices : σ) (history : List Transaction) : σ := (accesses history).foldl serve devices

/-- The reply to a transaction after a history; `devices` are those that the history began with. -/
def reply (devices : σ) (history : List Transaction) : Transaction → Reply
  | .read a =>
    match register? (wrapped a) with
    | some register => .byte (Device.read (served devices history) register).1
    | none => .byte (shown history (wrapped a))
  | .peek a => .byte (shown history (wrapped a))
  | .write .. => .nothing
  | .install image => .installed (min image.length 0x1000)

end

/-! ### One more transaction -/

section
variable {σ : Type} [Device σ] (history : List Transaction) (t : Transaction)

theorem latest_append (byte? : Transaction → Option Byte) :
    latest byte? (history ++ [t]) = (byte? t).getD (latest byte? history) := by
  unfold latest
  rw [List.filterMap_append]
  cases h : byte? t with
  | none => simp [h]
  | some value => simp [h]

theorem accesses_append :
    accesses (history ++ [t]) = accesses history ++ (access? t).toList := by
  unfold accesses
  rw [List.filterMap_append]
  cases h : access? t with
  | none => simp [h]
  | some access => simp [h]

theorem served_append (devices : σ) :
    served devices (history ++ [t]) = (access? t).toList.foldl serve (served devices history) := by
  rw [served, accesses_append, List.foldl_append]
  rfl

end

end History

open History

/-! ### The map -/

namespace Address

theorem toNat_ofWord (a : Word) : (ofWord a).toNat = wrapped a := BitVec.toNat_ofNat ..

/-- The banks of registers lie where the map says. -/
theorem deviceRegister?_eq (a : Address) : a.deviceRegister? = register? a.toNat := by
  unfold deviceRegister?
  generalize a.toNat = n
  have hr : Bank.r.base ≤ n ∧ n < Bank.r.base + Bank.r.size ↔ 0xD0 ≤ n ∧ n ≤ 0xDF := by
    simp only [Bank.base, Bank.size]
    omega
  have hp : Bank.p.base ≤ n ∧ n < Bank.p.base + Bank.p.size ↔ 0xE0 ≤ n ∧ n ≤ 0xE9 := by
    simp only [Bank.base, Bank.size]
    omega
  have ht : Bank.timers.base ≤ n ∧ n < Bank.timers.base + Bank.timers.size ↔
      0xF9 ≤ n ∧ n ≤ 0xFF := by
    simp only [Bank.base, Bank.size]
    omega
  simp only [Bank.all, List.findSome?_cons, List.findSome?_nil, Bank.register?, hr, hp, ht,
    register?]
  by_cases h : 0xD0 ≤ n ∧ n ≤ 0xDF
  · simp only [dif_pos h]
    rfl
  by_cases h' : 0xE0 ≤ n ∧ n ≤ 0xE9
  · simp only [dif_neg h, dif_pos h']
    rfl
  by_cases h'' : 0xF9 ≤ n ∧ n ≤ 0xFF
  · simp only [dif_neg h, dif_neg h', dif_pos h'']
    rfl
  · simp only [dif_neg h, dif_neg h', dif_neg h'']

theorem place_of_ram {a : Address} (h : a.toNat ≤ 0x5F) :
    a.place = .ram ⟨a.toNat, Nat.lt_succ_of_le h⟩ :=
  dif_pos (Nat.lt_succ_of_le h)

theorem register?_of_ram {n : Nat} (h : n ≤ 0x5F) : register? n = none := by
  rw [register?, dif_neg (by omega), dif_neg (by omega), dif_neg (by omega)]

theorem register?_of_rom {n : Nat} (h : 0x1000 ≤ n) : register? n = none := by
  rw [register?, dif_neg (by omega), dif_neg (by omega), dif_neg (by omega)]

theorem not_ram_of_register? {n : Nat} {register : DeviceRegister}
    (h : register? n = some register) : ¬ n ≤ 0x5F := fun hram => by
  rw [register?_of_ram hram] at h
  cases h

theorem not_rom_of_register? {n : Nat} {register : DeviceRegister}
    (h : register? n = some register) : ¬ 0x1000 ≤ n := fun hrom => by
  rw [register?_of_rom hrom] at h
  cases h

/-- Between RAM and ROM there are registers, and else nothing. -/
theorem place_of_between {a : Address} (h : ¬ a.toNat ≤ 0x5F) (h' : ¬ 0x1000 ≤ a.toNat) :
    a.place = match register? a.toNat with
      | some register => .device register
      | none => .unmapped := by
  have hram : ¬ a.toNat < ramSize := fun hlt => h (Nat.le_of_lt_succ hlt)
  have hrom : ¬ romStart ≤ a.toNat := h'
  cases hregister : register? a.toNat with
  | none => simp only [place, dif_neg hram, dif_neg hrom, deviceRegister?_eq, hregister]
  | some register => simp only [place, dif_neg hram, dif_neg hrom, deviceRegister?_eq, hregister]

end Address

namespace Bus

variable {σ : Type} [Device σ]

/-- A read reaches a device at its registers; elsewhere it is a look. -/
theorem read_eq (b : Bus σ) (a : Address) :
    b.read a = match register? a.toNat with
      | some register =>
        let (value, devices) := Device.read b.devices register
        (value, { b with devices })
      | none => (b.peek a, b) := by
  cases hregister : register? a.toNat with
  | none => exact b.read_of_not_device (a.deviceRegister?_eq.trans hregister)
  | some register =>
    have hplace : a.place = .device register := by
      rw [Address.place_of_between (Address.not_ram_of_register? hregister)
        (Address.not_rom_of_register? hregister), hregister]
    rw [read, hplace]

/-- A write reaches a device at its registers; elsewhere only RAM keeps it. -/
theorem write_eq (b : Bus σ) (a : Address) (value : Byte) :
    b.write a value = match register? a.toNat with
      | some register => { b with devices := Device.write b.devices register value }
      | none =>
        if h : a.toNat ≤ 0x5F then
          { b with ram := b.ram.set a.toNat value (show _ < ramSize from Nat.lt_succ_of_le h) }
        else b := by
  rw [write]
  by_cases hram : a.toNat ≤ 0x5F
  · rw [Address.place_of_ram hram, Address.register?_of_ram hram, dif_pos hram]
  by_cases hrom : 0x1000 ≤ a.toNat
  · obtain ⟨cell, hplace, -⟩ := Address.place_of_romStart_le hrom
    rw [hplace, Address.register?_of_rom hrom, dif_neg hram]
  · rw [Address.place_of_between hram hrom]
    cases register? a.toNat with
    | some register => rfl
    | none => rw [dif_neg hram]

/-! ### One transaction -/

theorem perform_ram (b : Bus σ) (t : Transaction) (cell : Fin ramSize) :
    (b.perform t).2.ram.get cell = (written? cell t).getD (b.ram.get cell) := by
  cases t with
  | read a =>
    show (b.read (Address.ofWord a)).2.ram.get cell = _
    rw [read_eq]
    cases register? (Address.ofWord a).toNat <;> rfl
  | write a value =>
    show (b.write (Address.ofWord a) value).ram.get cell = _
    rw [write_eq, written?, Address.toNat_ofWord]
    have hcell : cell.val ≤ 0x5F := Nat.le_of_lt_succ cell.isLt
    by_cases hram : wrapped a ≤ 0x5F
    · simp only [Address.register?_of_ram hram, dif_pos hram]
      show (b.ram.set (wrapped a) value _)[cell.val] = _
      rw [Vector.getElem_set]
      split <;> rfl
    · have hne : wrapped a ≠ cell := fun heq => hram (heq ▸ hcell)
      rw [if_neg hne]
      cases register? (wrapped a) with
      | some register => rfl
      | none => rw [dif_neg hram]; rfl
  | peek | install => rfl

theorem perform_rom (b : Bus σ) (t : Transaction) (cell : Fin romSize) :
    (b.perform t).2.rom.get cell = (loaded? (0x1000 + cell) t).getD (b.rom.get cell) := by
  cases t with
  | read a =>
    show (b.read (Address.ofWord a)).2.rom.get cell = _
    rw [read_rom]
    rfl
  | write a value =>
    show (b.write (Address.ofWord a) value).rom.get cell = _
    rw [write_rom]
    rfl
  | peek => rfl
  | install image =>
    have hsize : min image.length 0x1000 ≤ 0x1000 := Nat.min_le_right ..
    have hcovered : 0x1000 - min image.length 0x1000 ≤ cell ↔
        0x2000 - min image.length 0x1000 ≤ 0x1000 + cell := by omega
    have hindex : 0x1000 + cell.val - (0x2000 - min image.length 0x1000) =
        cell - (0x1000 - min image.length 0x1000) := by omega
    refine (b.install_rom_getElem image cell.isLt).trans ?_
    simp only [loaded?, installedSize, romSize, hcovered, hindex]
    rfl

theorem perform_devices (b : Bus σ) (t : Transaction) :
    (b.perform t).2.devices = (access? t).toList.foldl serve b.devices := by
  cases t with
  | read a =>
    show (b.read (Address.ofWord a)).2.devices = _
    rw [read_eq, Address.toNat_ofWord, access?]
    cases register? (wrapped a) <;> rfl
  | write a value =>
    show (b.write (Address.ofWord a) value).devices = _
    rw [write_eq, Address.toNat_ofWord, access?]
    cases register? (wrapped a) with
    | some register => rfl
    | none =>
      dsimp only
      split <;> rfl
  | peek | install => rfl

variable {devices : σ} {history : List Transaction} {b : Bus σ}

/-- The bus holds what the history says. -/
structure Reflects (devices : σ) (history : List Transaction) (b : Bus σ) : Prop where
  ram : ∀ cell : Fin ramSize, b.ram.get cell = latest (written? cell) history
  rom : ∀ cell : Fin romSize, b.rom.get cell = latest (loaded? (0x1000 + cell)) history
  devices : b.devices = served devices history

theorem reflects_fresh (devices : σ) : ({ devices } : Bus σ).Reflects devices [] where
  ram _ := Vector.getElem_replicate ..
  rom _ := Vector.getElem_replicate ..
  devices := rfl

/-- One more transaction makes the history longer, and the bus holds what that says. -/
theorem Reflects.perform (hb : b.Reflects devices history) (t : Transaction) :
    (b.perform t).2.Reflects devices (history ++ [t]) where
  ram cell := by rw [b.perform_ram, latest_append, hb.ram]
  rom cell := by rw [b.perform_rom, latest_append, hb.rom]
  devices := by rw [b.perform_devices, served_append, hb.devices]

theorem Reflects.peek (hb : b.Reflects devices history) (a : Word) :
    b.peek (Address.ofWord a) = shown history (wrapped a) := by
  rw [shown, Bus.peek, ← Address.toNat_ofWord]
  generalize Address.ofWord a = a
  by_cases hram : a.toNat ≤ 0x5F
  · rw [if_pos hram, Address.place_of_ram hram]
    exact hb.ram ⟨a.toNat, _⟩
  by_cases hrom : 0x1000 ≤ a.toNat
  · obtain ⟨cell, hplace, hcell⟩ := Address.place_of_romStart_le hrom
    have haddress : 0x1000 + cell.val = a.toNat := by
      rw [hcell, romStart]
      omega
    rw [if_neg hram, if_pos hrom, hplace, ← haddress]
    exact hb.rom cell
  · rw [if_neg hram, if_neg hrom, Address.place_of_between hram hrom]
    cases register? a.toNat <;> rfl

theorem Reflects.reply (hb : b.Reflects devices history) (t : Transaction) :
    (b.perform t).1 = reply devices history t := by
  cases t with
  | read a =>
    show Reply.byte (b.read (Address.ofWord a)).1 = _
    rw [read_eq, hb.peek, hb.devices, Address.toNat_ofWord, History.reply]
    cases register? (wrapped a) <;> rfl
  | peek a => exact congrArg Reply.byte (hb.peek a)
  | write | install => rfl

/-- Every reply is the one that the history before it determines. -/
theorem Reflects.performAll (hb : b.Reflects devices history) (ts : List Transaction) :
    (b.performAll ts).1 = ts.mapIdx (fun i t => History.reply devices (history ++ ts.take i) t) ∧
      (b.performAll ts).2.Reflects devices (history ++ ts) := by
  induction ts generalizing b history with
  | nil => exact ⟨rfl, by rwa [List.append_nil]⟩
  | cons t rest ih =>
    obtain ⟨hreplies, hrest⟩ := ih (hb.perform t)
    simp only [List.append_assoc, List.singleton_append] at hreplies hrest
    refine ⟨?_, hrest⟩
    show (b.perform t).1 :: ((b.perform t).2.performAll rest).1 = _
    rw [List.mapIdx_cons, hb.reply, hreplies, List.take_zero, List.append_nil]
    rfl

end Bus

/-! ### What the devices see -/

/-- Devices together with the accesses that were made to them. -/
structure Recorder (σ : Type) where
  devices : σ
  accesses : List DeviceAccess := []

namespace Recorder

variable {σ : Type} [Device σ]

instance : Device (Recorder σ) where
  read r register :=
    let (value, devices) := Device.read r.devices register
    (value, ⟨devices, r.accesses ++ [.read register]⟩)
  write r register value :=
    ⟨Device.write r.devices register value, r.accesses ++ [.write register value]⟩
  requestsInterrupt r := Device.requestsInterrupt r.devices
  unimplemented := Device.unimplemented σ

theorem serve (r : Recorder σ) (access : DeviceAccess) :
    History.serve r access = ⟨History.serve r.devices access, r.accesses ++ [access]⟩ := by
  cases access <;> rfl

theorem foldl_serve (r : Recorder σ) (accesses : List DeviceAccess) :
    accesses.foldl History.serve r =
      ⟨accesses.foldl History.serve r.devices, r.accesses ++ accesses⟩ := by
  induction accesses generalizing r with
  | nil => simp only [List.foldl_nil, List.append_nil]
  | cons access rest ih =>
    simp only [List.foldl_cons, ih, serve, List.append_assoc, List.singleton_append]

/-- Recording changes no reply. -/
theorem reply (devices : σ) (history : List Transaction) (t : Transaction) :
    History.reply ({ devices } : Recorder σ) history t = History.reply devices history t := by
  cases t with
  | read a =>
    simp only [History.reply, served, foldl_serve]
    cases register? (wrapped a) <;> rfl
  | write | peek | install => rfl

end Recorder

namespace Bus

variable {σ : Type} [Device σ]

/-- Every reply of a bus is the one that the transactions before it determine: RAM keeps the last
write, ROM the last image that covers the address, and all else is open. The devices see the
accesses to their registers, and those only. -/
theorem performAll_eq_history (devices : σ) (ts : List Transaction) :
    let r := ({ devices } : Bus σ).performAll ts
    let recorded := ({ devices := { devices } } : Bus (Recorder σ)).performAll ts
    r.1 = ts.mapIdx (fun i t => reply devices (ts.take i) t) ∧
      r.2.devices = served devices ts ∧
      recorded.1 = r.1 ∧
      recorded.2.devices = ⟨served devices ts, accesses ts⟩ := by
  intro r recorded
  obtain ⟨hreplies, hr⟩ := (reflects_fresh devices).performAll ts
  obtain ⟨hrecorded, hr'⟩ := (reflects_fresh ({ devices } : Recorder σ)).performAll ts
  refine ⟨hreplies, hr.devices, ?_, ?_⟩
  · simp only [recorded, r, hreplies, hrecorded, Recorder.reply]
  · rw [hr'.devices, served, Recorder.foldl_serve]
    rfl

/-- A short image leaves what a longer one has put below it, and a write does not reach it. -/
example :
    reply ({} : Unconnected) [.install [1, 2, 3], .write 0x1FFE 9, .install [4]] (.read 0xFFFE) =
      .byte 2 := by
  decide

end Bus

end M740
