import Mathlib.Data.Fin.Tuple.Basic
import Mathlib.Data.List.GetD
import Mathlib.Data.List.OfFn
import Mathlib.Tactic.Ring

/-!
# Byte strings and readers

* `leBytes`, `ofLeBytes` — a number as little-endian bytes.
* `Reader` — a computation that takes bytes from the front of a string, or fails on one that is too short;
  `take` and `takeLe` read a block and a number, `readAll`, `readList` and `readArray` one item after the
  other.
* `Stable` — a reader does not look past the bytes it takes.
* `Reads` — a reader takes exactly this string off any longer one, and returns this value; with the rules
  for sequencing and for lists.
-/

namespace Bytes

/-- The `n` low bytes of a number, least significant first. -/
def leBytes : Nat → Nat → List UInt8
  | 0, _ => []
  | n + 1, x => UInt8.ofNat x :: leBytes n (x / 256)

/-- The number whose bytes these are, least significant first. -/
def ofLeBytes : List UInt8 → Nat
  | [] => 0
  | b :: bs => b.toNat + 256 * ofLeBytes bs

@[simp] theorem leBytes_length (n x : Nat) : (leBytes n x).length = n := by
  induction n generalizing x with
  | zero => rfl
  | succ n ih => simp [leBytes, ih]

theorem ofLeBytes_leBytes (n x : Nat) : ofLeBytes (leBytes n x) = x % 256 ^ n := by
  induction n generalizing x with
  | zero => simp [leBytes, ofLeBytes, Nat.mod_one]
  | succ n ih =>
    have hbyte : (UInt8.ofNat x).toNat = x % 256 := UInt8.toNat_ofNat'
    rw [leBytes, ofLeBytes, ih, hbyte, Nat.pow_succ', Nat.mod_mul]

/-- A computation that takes bytes from the front of a string. -/
abbrev Reader (α : Type) := StateT (List UInt8) Option α

variable {α β ι : Type}

/-- The next `n` bytes. -/
def take (n : Nat) : Reader (List UInt8) := fun bytes =>
  if n ≤ bytes.length then some (bytes.take n, bytes.drop n) else none

/-- The number in the next `n` bytes. -/
def takeLe (n : Nat) : Reader Nat := do
  let bytes ← take n
  return ofLeBytes bytes

/-- One item after the other. -/
def readAll (r : ι → Reader α) : List ι → Reader (List α)
  | [] => return []
  | i :: is => do
    let a ← r i
    let as ← readAll r is
    return a :: as

/-- `n` items of one kind. -/
def readList (r : Reader α) (n : Nat) : Reader (List α) :=
  readAll (fun _ : Nat => r) (List.range n)

/-- An array of `n` items. -/
def readArray (r : Reader α) : (n : Nat) → Reader (Fin n → α)
  | 0 => return Fin.elim0
  | n + 1 => do
    let a ← r
    let as ← readArray r n
    return Fin.cons a as

/-- One item after the other, if every one can be written. -/
def writeAll (write : ι → Option (List UInt8)) : List ι → Option (List UInt8)
  | [] => some []
  | i :: is => do
    let first ← write i
    let rest ← writeAll write is
    return first ++ rest

theorem writeAll_some (write : ι → List UInt8) (is : List ι) :
    writeAll (fun i => some (write i)) is = some (is.flatMap write) := by
  induction is with
  | nil => rfl
  | cons i is ih =>
    rw [writeAll, ih, List.flatMap_cons]
    rfl

theorem readAll_map {κ : Type} (r : κ → Reader α) (kind : ι → κ) (is : List ι) :
    readAll r (is.map kind) = readAll (fun i => r (kind i)) is := by
  induction is with
  | nil => rfl
  | cons i is ih => rw [List.map_cons, readAll, readAll, ih]

/-- An assertion. -/
def check (p : Prop) [Decidable p] : Reader Unit := fun bytes =>
  if p then some ((), bytes) else none

theorem take_eq_some {n : Nat} {bytes block rest : List UInt8} :
    take n bytes = some (block, rest) ↔ bytes = block ++ rest ∧ block.length = n := by
  constructor
  · intro h
    by_cases hn : n ≤ bytes.length
    · rw [take, if_pos hn, Option.some.injEq, Prod.mk.injEq] at h
      obtain ⟨rfl, rfl⟩ := h
      exact ⟨(List.take_append_drop n bytes).symm, List.length_take_of_le hn⟩
    · rw [take, if_neg hn] at h
      cases h
  · rintro ⟨rfl, rfl⟩
    simp [take]

theorem bind_eq_some {x : Reader α} {f : α → Reader β} {bytes rest : List UInt8} {b : β} :
    (x >>= f) bytes = some (b, rest) ↔ ∃ a mid, x bytes = some (a, mid) ∧ f a mid = some (b, rest) := by
  show (x bytes).bind (fun p => f p.1 p.2) = some (b, rest) ↔ _
  simp [Option.bind_eq_some_iff]

theorem takeLe_eq_some {n x : Nat} {bytes rest : List UInt8} :
    takeLe n bytes = some (x, rest) ↔
      ∃ block, bytes = block ++ rest ∧ block.length = n ∧ ofLeBytes block = x := by
  rw [takeLe, bind_eq_some]
  constructor
  · rintro ⟨block, mid, htake, hx⟩
    obtain ⟨rfl, hn⟩ := take_eq_some.1 htake
    obtain ⟨rfl, rfl⟩ := Prod.mk.inj (Option.some.inj hx)
    exact ⟨block, rfl, hn, rfl⟩
  · rintro ⟨block, hbytes, hn, rfl⟩
    exact ⟨block, rest, take_eq_some.2 ⟨hbytes, hn⟩, rfl⟩

theorem map_getD_range (as : List α) (d : α) : (List.range as.length).map (as.getD · d) = as := by
  refine List.ext_getElem (by simp) fun i h h' => ?_
  rw [List.getElem_map, List.getElem_range, List.getD_eq_getElem _ _ h']

/-- What a reader returns does not depend on the bytes after those it takes. -/
def Stable (r : Reader α) : Prop :=
  ∀ {bytes rest : List UInt8} {a : α}, r bytes = some (a, rest) →
    ∀ more, r (bytes ++ more) = some (a, rest ++ more)

namespace Stable

theorem pure (a : α) : Stable (Pure.pure a : Reader α) := by
  intro bytes rest a' h more
  cases h
  rfl

theorem bind {x : Reader α} {f : α → Reader β} (hx : Stable x) (hf : ∀ a, Stable (f a)) :
    Stable (x >>= f) := by
  intro bytes rest b h more
  obtain ⟨a, mid, hfirst, hsecond⟩ := bind_eq_some.1 h
  exact bind_eq_some.2 ⟨a, mid ++ more, hx hfirst more, hf a hsecond more⟩

theorem take (n : Nat) : Stable (Bytes.take n) := by
  intro bytes rest block h more
  obtain ⟨rfl, hn⟩ := take_eq_some.1 h
  exact take_eq_some.2 ⟨List.append_assoc .., hn⟩

theorem takeLe (n : Nat) : Stable (Bytes.takeLe n) :=
  bind (take n) fun block => pure (ofLeBytes block)

end Stable

/-- The reader takes exactly `bytes` off any string that starts with them, and returns `a`. -/
def Reads (r : Reader α) (bytes : List UInt8) (a : α) : Prop :=
  ∀ rest, r (bytes ++ rest) = some (a, rest)

namespace Reads

theorem pure (a : α) : Reads (Pure.pure a : Reader α) [] a := fun _ => rfl

theorem bind {x : Reader α} {f : α → Reader β} {first second : List UInt8} {a : α} {b : β}
    (hx : Reads x first a) (hf : Reads (f a) second b) : Reads (x >>= f) (first ++ second) b := by
  intro rest
  rw [bind_eq_some]
  exact ⟨a, second ++ rest, by rw [List.append_assoc, hx], hf rest⟩

theorem map {x : Reader α} {bytes : List UInt8} {a : α} (hx : Reads x bytes a) (g : α → β) :
    Reads (do let v ← x; return g v) bytes (g a) := by
  have h := bind (f := fun v => (Pure.pure (g v) : Reader β)) hx (pure (g a))
  rwa [List.append_nil] at h

theorem take (block : List UInt8) : Reads (Bytes.take block.length) block block :=
  fun _ => take_eq_some.2 ⟨rfl, rfl⟩

theorem takeLe {n x : Nat} (hx : x < 256 ^ n) : Reads (Bytes.takeLe n) (leBytes n x) x := by
  have hblock := take (leBytes n x)
  rw [leBytes_length] at hblock
  have h := hblock.map ofLeBytes
  rwa [ofLeBytes_leBytes, Nat.mod_eq_of_lt hx] at h

/-- Items that can be written one after the other are read back one after the other. -/
theorem writeAll {r : ι → Reader α} {write : ι → Option (List UInt8)} {value : ι → α} {is : List ι}
    (h : ∀ i ∈ is, ∃ bytes, write i = some bytes ∧ Reads (r i) bytes (value i)) :
    ∃ bytes, Bytes.writeAll write is = some bytes ∧ Reads (Bytes.readAll r is) bytes (is.map value) := by
  induction is with
  | nil => exact ⟨[], rfl, pure []⟩
  | cons i is ih =>
    obtain ⟨first, hfirst, hi⟩ := h i List.mem_cons_self
    obtain ⟨rest, hrest, his⟩ := ih fun j hj => h j (List.mem_cons_of_mem i hj)
    refine ⟨first ++ rest, ?_, bind hi (map his (value i :: ·))⟩
    rw [Bytes.writeAll, hfirst, hrest]
    rfl

theorem readAll {r : ι → Reader α} {write : ι → List UInt8} {value : ι → α} {is : List ι}
    (h : ∀ i ∈ is, Reads (r i) (write i) (value i)) :
    Reads (Bytes.readAll r is) (is.flatMap write) (is.map value) := by
  obtain ⟨bytes, hwrite, hread⟩ := writeAll fun i hi => ⟨write i, rfl, h i hi⟩
  rw [writeAll_some] at hwrite
  rwa [Option.some.inj hwrite]

/-- A list is read back as the items by their index. -/
theorem readList {r : Reader α} {write : α → List UInt8} {as : List α} (d : α)
    (h : ∀ a ∈ as, Reads r (write a) a) :
    Reads (Bytes.readList r as.length)
      ((List.range as.length).flatMap fun i => write (as.getD i d)) as := by
  have hall := @readAll _ _ (fun _ : Nat => r) (fun i => write (as.getD i d)) (fun i => as.getD i d)
    (List.range as.length) fun i hi => by
      have hlen := List.mem_range.1 hi
      rw [List.getD_eq_getElem _ _ hlen]
      exact h _ (List.getElem_mem hlen)
  rwa [map_getD_range] at hall

theorem writeArray {r : Reader α} {write : α → Option (List UInt8)} {n : Nat} {as : Fin n → α}
    (h : ∀ k, ∃ bytes, write (as k) = some bytes ∧ Reads r bytes (as k)) :
    ∃ bytes, Bytes.writeAll write (List.ofFn as) = some bytes ∧ Reads (Bytes.readArray r n) bytes as := by
  induction n with
  | zero =>
    have hnil : as = Fin.elim0 := funext fun i => i.elim0
    rw [hnil]
    exact ⟨[], rfl, pure _⟩
  | succ n ih =>
    obtain ⟨first, hfirst, hhead⟩ := h 0
    obtain ⟨rest, hrest, htail⟩ := ih fun k => h k.succ
    have hcons : (Fin.cons (as 0) fun k => as k.succ) = as := Fin.cons_self_tail as
    have hall := map htail (Fin.cons (α := fun _ => α) (as 0))
    rw [hcons] at hall
    refine ⟨first ++ rest, ?_, bind hhead hall⟩
    rw [List.ofFn_succ, Bytes.writeAll, hfirst, hrest]
    rfl

theorem readArray {r : Reader α} {write : α → List UInt8} (h : ∀ a, Reads r (write a) a) {n : Nat}
    (as : Fin n → α) : Reads (Bytes.readArray r n) ((List.ofFn as).flatMap write) as := by
  obtain ⟨bytes, hwrite, hread⟩ :=
    @writeArray _ r (fun a => some (write a)) n as fun k => ⟨write (as k), rfl, h (as k)⟩
  rw [writeAll_some] at hwrite
  rwa [Option.some.inj hwrite]

theorem check {p : Prop} [Decidable p] (hp : p) : Reads (Bytes.check p) [] () := by
  intro rest
  rw [Bytes.check, if_pos hp]
  rfl

theorem check_bind {p : Prop} [Decidable p] (hp : p) {f : Unit → Reader β} {bytes : List UInt8} {b : β}
    (hf : Reads (f ()) bytes b) : Reads (Bytes.check p >>= f) bytes b :=
  bind (check hp) hf

end Reads

end Bytes
