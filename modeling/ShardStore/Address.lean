import ShardStore.Bytes.Word
import ShardStore.Text.Blank
/-!
Agent addresses.

An agent is reached at an IPv4 address and a slot; the slot selects the socket it listens on,
and the agent's companion services sit at fixed slot offsets from it. An address packs into a 48-bit serial
number, which is also how it travels on the wire; a serial may carry a virtual-node number above
bit 49, which `ofSerial` masks off. The text form is `a.b.c.d,slot`, and reading it accepts
exactly the dotted-quad and unsigned-number syntax described at `parse?`.
-/

namespace ShardStore

/-- An agent address: an IPv4 address as a word and a slot. Ordered by address, then slot. -/
structure Address where
  ip : UInt32
  slot : UInt16
deriving DecidableEq, Repr, Inhabited

namespace Address

/-- The first listening socket number; an agent listens at this number plus its slot. -/
def startPort : UInt16 := 17200

/-- Slots at or above this number are refused. -/
def maxSlot : UInt16 := 200

/-- Virtual nodes per agent unless configured. -/
def startingVirtualNodes : UInt16 := 100

/-- Where the virtual-node number starts in a packed ring position. -/
def virtualShift : UInt64 := 49

/-- The bits of a packed position that hold the serial. -/
def agentMask : UInt64 := (1 <<< virtualShift) - 1

/-- Order by address, then slot. -/
def compare (x y : Address) : Ordering := (Ord.compare x.ip y.ip).then (Ord.compare x.slot y.slot)

instance : Ord Address := ⟨Address.compare⟩

/-- Strict order as a boolean test. -/
def lt (x y : Address) : Bool := Address.compare x y == .lt

/-- The loopback address at a slot. -/
def loopback (slot : UInt16) : Address := ⟨0x7F000001, slot⟩

/-- The four octets, most significant first. -/
def octets (a : Address) : List Nat :=
  [(a.ip >>> 24).toNat % 256, (a.ip >>> 16).toNat % 256, (a.ip >>> 8).toNat % 256, a.ip.toNat % 256]

/-- Dotted-quad text of the IP address. -/
def ipText (a : Address) : String := ".".intercalate (a.octets.map toString)

/-- The listening socket number, wrapping at 65536. -/
def tcpPort (a : Address) : UInt16 := startPort + a.slot

/-- The same IP address at a slot further on, wrapping. -/
def offset (a : Address) (by_ : UInt16) : Address := ⟨a.ip, a.slot + by_⟩

/-- The by-key read service of an agent. -/
def responder (a : Address) : Address := a.offset 2

/-- The map service of an agent. -/
def mapService (a : Address) : Address := a.offset 1

/-- The 48-bit serial: IP address above the slot. -/
def serial (a : Address) : UInt64 := (a.ip.toUInt64 <<< 16) ||| a.slot.toUInt64

/-- The address in a serial, ignoring bits from 49 up. -/
def ofSerial (s : UInt64) : Address :=
  let s := s &&& agentMask
  ⟨(s >>> 16).toUInt32, s.toUInt16⟩

/-- A ring position: the serial with a virtual-node number above it. Bits above 63 are lost, so
virtual nodes 32768 apart share a position. -/
def packVirtual (serial : UInt64) (vid : UInt16) : UInt64 := serial ||| (vid.toUInt64 <<< virtualShift)

/-- The serial in a packed position. -/
def unpackVirtual (packed : UInt64) : UInt64 := packed &&& agentMask

/-- The text `a.b.c.d,slot`. -/
def render (a : Address) : String := s!"{a.ipText},{a.slot.toNat}"

/-- The socket text: the dotted address, a colon and the socket number. -/
def socketText (a : Address) : String := s!"{a.ipText}:{a.tcpPort.toNat}"

/-- One octet: one to three digits, no leading zero unless it is the only digit, at most 255. -/
def octet? (cs : List Char) : Option Nat := do
  if cs.length > 3 then none
  if cs.length > 1 ∧ cs.head? = some '0' then none
  let n ← Text.digits? cs
  if n ≤ 255 then some n else none

/-- A dotted quad: exactly four octets separated by dots, nothing else. -/
def ipv4? (cs : List Char) : Option UInt32 :=
  match cs.splitOn '.' with
  | [a, b, c, d] => do
    let a ← octet? a
    let b ← octet? b
    let c ← octet? c
    let d ← octet? d
    some (UInt32.ofNat (((a * 256 + b) * 256 + c) * 256 + d))
  | _ => none

/-- An unsigned 16-bit number: an optional plus sign, then digits, below 65536. -/
def u16? (cs : List Char) : Option UInt16 := (Text.unsigned? cs 65536).map UInt16.ofNat

/-- Read `ip,slot`: split at the first comma, trim both halves, read a dotted quad and an
unsigned 16-bit slot, and refuse a slot of 200 or more. -/
def parse? (s : String) : Option Address :=
  let cs := s.toList
  match cs.span (· ≠ ',') with
  | (ipPart, ',' :: slotPart) => do
    let ip ← ipv4? (Text.trim ipPart)
    let slot ← u16? (Text.trim slotPart)
    if slot < maxSlot then some ⟨ip, slot⟩ else none
  | _ => none

/-! ### The order -/

theorem compare_eq_lt_iff {x y : Address} :
    Address.compare x y = .lt ↔
      x.ip.toNat < y.ip.toNat ∨ (x.ip.toNat = y.ip.toNat ∧ x.slot.toNat < y.slot.toNat) := by
  rw [Address.compare, Ordering.then_eq_lt, Std.compare_eq_lt, Std.compare_eq_lt,
    Std.compare_eq_iff_eq, UInt32.lt_iff_toNat_lt, UInt16.lt_iff_toNat_lt, ← UInt32.toNat_inj]

theorem compare_eq_gt_iff {x y : Address} :
    Address.compare x y = .gt ↔ Address.compare y x = .lt := by
  rw [Address.compare, Address.compare, Ordering.then_eq_gt, Ordering.then_eq_lt,
    Std.compare_eq_gt, Std.compare_eq_lt, Std.compare_eq_gt, Std.compare_eq_lt,
    Std.compare_eq_iff_eq, Std.compare_eq_iff_eq]
  constructor <;> rintro (h | ⟨h1, h2⟩)
  all_goals first | exact .inl h | exact .inr ⟨h1.symm, h2⟩

theorem eq_of_compare_eq {x y : Address} (h : Address.compare x y = .eq) : x = y := by
  obtain ⟨hip, hslot⟩ := Ordering.then_eq_eq.mp h
  have h1 : x.ip = y.ip := Std.LawfulEqOrd.eq_of_compare hip
  have h2 : x.slot = y.slot := Std.LawfulEqOrd.eq_of_compare hslot
  cases x
  cases y
  simp only at h1 h2
  rw [h1, h2]

theorem compare_lt_trans {x y z : Address} (h₁ : Address.compare x y = .lt)
    (h₂ : Address.compare y z = .lt) : Address.compare x z = .lt := by
  rw [compare_eq_lt_iff] at *
  omega

theorem compare_self_ne_lt (x : Address) : Address.compare x x ≠ .lt := by
  rw [ne_eq, compare_eq_lt_iff]
  omega

end Address

end ShardStore
