import Prac.WideDuoram
import Prac.SharedSearch
import Prac.Bst

/-!
# Nodes on shares

* `Nodes.array` — the nodes in the clear as the array that a `Duoram<Node>` stands for.
* `WideState.Holds.read_node`, `write_node`, `write_pointers`, … — the accesses of the trees to shared nodes.
* `revealNode`, `reveal_isZero`, `reveal_selectBits`, … — the values behind the gadgets that the trees use.
-/

namespace Prac

open NodeField

/-! ## Gadgets -/

/-- Shares of a node, register by register. -/
def nodeShares (key : Player → RegAS) (pointers value : Player → RegXS) : ∀ f : NodeField, Player → f.Reg
  | .key => key
  | .pointers => pointers
  | .value => value

/-- The node behind shares. -/
def revealNode (c : ∀ f : NodeField, Player → f.Reg) : Node :=
  ⟨reveal (c .key), reveal (c .pointers), reveal (c .value)⟩

/-- A shared bit flipped, by P0. -/
def notShare (b : Player → RegBS) (p : Player) : RegBS := ⟨(b p).bshare ^^ !p.bit⟩

/-- The XOR of shared bits. -/
def xorShare (a b : Player → RegBS) (p : Player) : RegBS := ⟨(a p).bshare ^^ (b p).bshare⟩

@[simp] theorem reveal_notShare (b : Player → RegBS) : reveal (notShare b) = !reveal b := by
  simp only [reveal_bs, notShare, Player.bit_p0, Player.bit_p1]
  cases (b .p0).bshare <;> cases (b .p1).bshare <;> rfl

@[simp] theorem reveal_xorShare (a b : Player → RegBS) : reveal (xorShare a b) = (reveal a ^^ reveal b) :=
  reveal_xorBS a b

@[simp] theorem reveal_or (T : BitSelectTriple) (a b : Player → RegBS) :
    reveal (mpcOr T a b) = (reveal a || reveal b) := mpcOr_eq T a b

@[simp] theorem reveal_selectBS (T : BitSelectTriple) (f a b : Player → RegBS) :
    reveal (mpcSelectBS T f a b) = select (reveal f) (reveal a) (reveal b) := mpcSelectBS_eq T f a b

/-- `mpc_select` of XOR shares of `nbits` bits. -/
theorem reveal_selectBits {nbits : Nat} (triple : ValSelectTriple) (junk : Player → Value) (f : Player → RegBS)
    (a b : Player → RegXS) :
    reveal (mpcSelectXS nbits triple junk f a b) = selectBits nbits (reveal f) (reveal a) (reveal b) := by
  have h := mpcSelectXS_eq nbits triple junk f a b
  have hmasked p : (mpcSelectXS nbits triple junk f a b p).xshare &&& maskBits nbits =
      (mpcSelectXS nbits triple junk f a b p).xshare := by
    rw [mpcSelectXS_xshare, BitVec.and_assoc, BitVec.and_self]
  rw [RegXS.combine, xor_and_maskBits, hmasked, hmasked] at h
  exact h

/-- `cdpf.is_zero` of XOR shares. -/
def isZeroWith (prg : DPFnode → Bool → DPFnode) (coins : CdpfCoins) (x : Player → RegXS) : Player → RegBS :=
  CDPF.isZero prg (CDPF.generate prg coins.seeds coins.asTarget coins.xsTarget coins.target) x

@[simp] theorem reveal_isZero (prg : DPFnode → Bool → DPFnode) (coins : CdpfCoins) (x : Player → RegXS) :
    reveal (isZeroWith prg coins x) = decide (reveal x = 0) := by
  obtain ⟨dpf, hdpf⟩ : ∃ dpf, dpf = CDPF.generate prg coins.seeds coins.asTarget coins.xsTarget coins.target :=
    ⟨_, rfl⟩
  have h : CDPF.Halves prg coins.target dpf :=
    hdpf ▸ CDPF.generate_spec prg coins.seeds coins.asTarget coins.xsTarget coins.target
  -- the players open the target XORed with the word
  have hopen : ((dpf .p0).xsTarget - x .p0 + ((dpf .p1).xsTarget - x .p1)).xshare = coins.target ^^^ reveal x := by
    rw [← h.xsTarget]
    exact Xor.xor_xor_xor_comm ..
  have hlocal p : CDPF.isZero prg dpf x p = CDPF.isZeroLocal prg (dpf p) (coins.target ^^^ reveal x) := by
    cases p with
    | p0 => exact congrArg (CDPF.isZeroLocal prg (dpf .p0)) hopen
    | p1 =>
        refine congrArg (CDPF.isZeroLocal prg (dpf .p1)) (Eq.trans ?_ hopen)
        exact congrArg RegXS.xshare (add_comm ..)
  rw [isZeroWith, ← hdpf, reveal_bs, hlocal, hlocal, CDPF.isZeroLocal_eq, CDPF.isZeroLocal_eq,
    (CDPF.compareLocal_spec h _).1, decide_eq_decide, sub_eq_zero]
  constructor
  · intro heq
    rw [← xor_cancel_left coins.target (reveal x), ← heq]
    exact BitVec.xor_self
  · intro hzero
    rw [hzero]
    exact BitVec.xor_zero.symm

/-! ## Pointers -/

/-- A function of words on the shares of a word, and of two. -/
def mapShare (f : Value → Value) (x : Player → RegXS) (p : Player) : RegXS := ⟨f (x p).xshare⟩

def mapShare2 (f : Value → Value → Value) (x y : Player → RegXS) (p : Player) : RegXS :=
  ⟨f (x p).xshare (y p).xshare⟩

section Pointers

variable (x y : Player → RegXS)

theorem xor_and_mask (a b mask : Value) : (a ^^^ b) &&& mask = (a &&& mask) ^^^ (b &&& mask) := by
  ext i
  simp only [BitVec.getElem_and, BitVec.getElem_xor, Bool.and_xor_distrib_right]

@[simp] theorem reveal_leftPtr : reveal (mapShare extractLeftPtr x) = extractLeftPtr (reveal x) := by
  simp only [reveal_xs, mapShare, extractLeftPtr, xor_and_mask, BitVec.ushiftRight_xor_distrib]

@[simp] theorem reveal_rightPtr : reveal (mapShare extractRightPtr x) = extractRightPtr (reveal x) := by
  simp only [reveal_xs, mapShare, extractRightPtr, xor_and_mask]

@[simp] theorem reveal_setLeftPtr : reveal (mapShare2 setLeftPtr x y) = setLeftPtr (reveal x) (reveal y) := by
  simp only [reveal_xs, mapShare2, setLeftPtr, xor_and_mask, BitVec.shiftLeft_xor_distrib]
  exact Xor.xor_xor_xor_comm ..

@[simp] theorem reveal_setRightPtr : reveal (mapShare2 setRightPtr x y) = setRightPtr (reveal x) (reveal y) := by
  simp only [reveal_xs, mapShare2, setRightPtr, xor_and_mask]
  exact Xor.xor_xor_xor_comm ..

end Pointers

/-! ## The array behind shared nodes -/

/-- The nodes as the entries of an array. -/
def Nodes.array (mem : Nodes) : WideArray NodeField.Reg where
  entries addr := node ⟨mem.key addr⟩ ⟨mem.pointers addr⟩ ⟨mem.value addr⟩
  explicitmode := false

section Words

variable {T : Type} [Register T] {oramSize : Nat} (A : Shape oramSize) (w : Words) (idx : Nat) (v : Value)

/-- A word of the array, as a register. -/
def regs : PlainArray T := ⟨fun addr => Register.set (w addr), false⟩

theorem regs_lookup : (regs w : PlainArray T).lookup A idx =
    Register.set (if idx < A.size then A.get w idx else 0) := by
  unfold PlainArray.lookup
  by_cases hlt : idx < A.size
  · rw [if_pos hlt, if_pos hlt]
    unfold Shape.entry Shape.get
    cases A.cell idx <;> rfl
  · rw [if_neg hlt, if_neg hlt, Register.set_zero]

theorem regs_replace (addr : Nat) : (regs w : PlainArray T).replace A idx (Register.set v) addr =
    Register.set ((if idx < A.size then A.set w idx v else w) addr) := by
  unfold PlainArray.replace
  by_cases hlt : idx < A.size
  · rw [if_pos hlt, if_pos hlt]
    unfold Shape.store Shape.set
    cases A.cell idx with
    | mem target =>
        rcases eq_or_ne addr target with rfl | hne
        · simp only [Function.update_self]
        · simp only [Function.update_of_ne hne]
          rfl
    | pad padval => rfl
  · rw [if_neg hlt, if_neg hlt]
    rfl

end Words

section Access

variable {oramSize : Nat} {A : Shape oramSize} {mem : Nodes} {s : WideState NodeField.Reg}

/-- Where the accesses at a shared pointer go. -/
theorem secretIndex_eq (hA : (Via.sub A).shape.Oblivious) (ptr : Player → RegXS) :
    (Via.sub A).shape.secretIndex ptr = (A.index (reveal ptr)).pos := by
  have hbits : A.addrSize ≤ 64 := hA.addrSize_le.trans (by decide)
  show (((ptr .p0).xshare ^^^ (ptr .p1).xshare) &&& maskBits A.addrSize).toNat = _
  rw [toNat_and_maskBits hbits, BitVec.toNat_setWidth]
  rfl

/-- A whole node at an index. -/
theorem Nodes.array_lookup (mem : Nodes) (A : Shape oramSize) (oidx : Index) :
    mem.array.lookup A oidx.pos =
      node ⟨A.read mem.key oidx⟩ ⟨A.read mem.pointers oidx⟩ ⟨A.read mem.value oidx⟩ := by
  funext f
  cases f with
  | key => exact regs_lookup A mem.key oidx.pos
  | pointers => exact regs_lookup A mem.pointers oidx.pos
  | value => exact regs_lookup A mem.value oidx.pos

/-- A whole node replaced. -/
theorem Nodes.array_replace (mem : Nodes) (A : Shape oramSize) (oidx : Index) (nd : Node) :
    (⟨mem.array.replace A oidx.pos (node ⟨nd.key⟩ ⟨nd.pointers⟩ ⟨nd.value⟩), false⟩ : WideArray NodeField.Reg) =
      (mem.write A oidx nd).array := by
  refine congrArg (WideArray.mk · false) (funext fun addr => funext fun f => ?_)
  cases f with
  | key => exact regs_replace A mem.key oidx.pos nd.key addr
  | pointers => exact regs_replace A mem.pointers oidx.pos nd.pointers addr
  | value => exact regs_replace A mem.value oidx.pos nd.value addr

/-- One field replaced. -/
theorem Nodes.array_replaceField (mem mem' : Nodes) (A : Shape oramSize) (oidx : Index) {f : NodeField} {v : f.Reg}
    (hf : ∀ addr, (mem.array.field f).replace A oidx.pos v addr = mem'.array.entries addr f)
    (hother : ∀ addr g, g ≠ f → mem'.array.entries addr g = mem.array.entries addr g) :
    (⟨mem.array.replaceField f A oidx.pos v, false⟩ : WideArray NodeField.Reg) = mem'.array := by
  refine congrArg (WideArray.mk · false) (funext fun addr => funext fun g => ?_)
  rcases eq_or_ne g f with rfl | hne
  · rw [WideArray.replaceField, Function.update_self, hf]
    rfl
  · rw [WideArray.replaceField, Function.update_of_ne hne]
    exact (hother addr g hne).symm

theorem Nodes.array_writeKey (mem : Nodes) (A : Shape oramSize) (oidx : Index) (M : Value) :
    (⟨mem.array.replaceField .key A oidx.pos ⟨M⟩, false⟩ : WideArray NodeField.Reg) =
      (mem.writeKey A oidx M).array :=
  Nodes.array_replaceField mem _ A oidx (regs_replace A mem.key oidx.pos M) fun addr g hne => by
    cases g with
    | key => exact absurd rfl hne
    | pointers | value => rfl

theorem Nodes.array_writePointers (mem : Nodes) (A : Shape oramSize) (oidx : Index) (M : Value) :
    (⟨mem.array.replaceField .pointers A oidx.pos ⟨M⟩, false⟩ : WideArray NodeField.Reg) =
      (mem.writePointers A oidx M).array :=
  Nodes.array_replaceField mem _ A oidx (regs_replace A mem.pointers oidx.pos M) fun addr g hne => by
    cases g with
    | pointers => exact absurd rfl hne
    | key | value => rfl

theorem Nodes.array_writeValue (mem : Nodes) (A : Shape oramSize) (oidx : Index) (M : Value) :
    (⟨mem.array.replaceField .value A oidx.pos ⟨M⟩, false⟩ : WideArray NodeField.Reg) =
      (mem.writeValue A oidx M).array :=
  Nodes.array_replaceField mem _ A oidx (regs_replace A mem.value oidx.pos M) fun addr g hne => by
    cases g with
    | value => exact absurd rfl hne
    | key | pointers => rfl

namespace WideState.Holds

variable (h : s.Holds oramSize mem.array) (hA : (Via.sub A).shape.Oblivious) (tio : MPCTIO 1)
  (ptr : Player → RegXS)
include h hA

/-- `A[ptr]` as a value. -/
theorem read_node (coins : WideCoins NodeField.Reg) :
    ∃ res, WideState.read tio s (.sub A) ptr coins = some (res, s) ∧
      revealNode res = mem.read A (A.index (reveal ptr)) := by
  obtain ⟨res, hrun, hres⟩ := h.read tio ptr hA rfl coins
  rw [secretIndex_eq hA] at hres
  have hnode f := (hres f).trans (congrFun (mem.array_lookup A _) f)
  exact ⟨res, hrun, Node.ext (congrArg RegAS.ashare (hnode .key)) (congrArg RegXS.xshare (hnode .pointers))
    (congrArg RegXS.xshare (hnode .value))⟩

/-- `A[ptr].NODE_POINTERS` as a value. -/
theorem read_pointers (coins : WideCoins NodeField.Reg) :
    ∃ res : Player → RegXS, WideState.readField tio s (.sub A) ptr .pointers coins = some (res, s) ∧
      reveal res = (mem.read A (A.index (reveal ptr))).pointers := by
  obtain ⟨res, hrun, hres⟩ := h.readField tio ptr .pointers hA rfl coins
  rw [secretIndex_eq hA] at hres
  exact ⟨res, hrun, congrArg RegXS.xshare (hres.trans (congrFun (mem.array_lookup A _) .pointers))⟩

variable (hpad : (Via.sub A).shape.PadFree)
include hpad

/-- `A[ptr] = M`. -/
theorem write_node (M : ∀ f : NodeField, Player → f.Reg) (old : WideCoins NodeField.Reg)
    (coins : ∀ f : NodeField, AccessCoins f.Reg) :
    ∃ s', WideState.write tio s (.sub A) ptr M old coins = some s' ∧
      s'.Holds oramSize (mem.write A (A.index (reveal ptr)) (revealNode M)).array := by
  obtain ⟨s', hrun, hs'⟩ := h.write tio ptr hA hpad rfl M old coins
  have hM : (fun f => M f .p0 + M f .p1) =
      node ⟨(revealNode M).key⟩ ⟨(revealNode M).pointers⟩ ⟨(revealNode M).value⟩ := by
    funext f
    cases f <;> rfl
  refine ⟨s', hrun, ?_⟩
  rw [← Nodes.array_replace, ← hM, ← secretIndex_eq hA]
  exact hs'

/-- `A[ptr].NODE_KEY = M`. -/
theorem write_key (M : Player → RegAS) (coins : WideCoins NodeField.Reg) :
    ∃ s', WideState.writeField tio s (.sub A) ptr .key M coins = some s' ∧
      s'.Holds oramSize (mem.writeKey A (A.index (reveal ptr)) (reveal M)).array := by
  obtain ⟨s', hrun, hs'⟩ := h.writeField tio ptr .key hA hpad rfl M coins
  refine ⟨s', hrun, ?_⟩
  rw [← Nodes.array_writeKey, ← secretIndex_eq hA]
  exact hs'

/-- `A[ptr].NODE_POINTERS = M`. -/
theorem write_pointers (M : Player → RegXS) (coins : WideCoins NodeField.Reg) :
    ∃ s', WideState.writeField tio s (.sub A) ptr .pointers M coins = some s' ∧
      s'.Holds oramSize (mem.writePointers A (A.index (reveal ptr)) (reveal M)).array := by
  obtain ⟨s', hrun, hs'⟩ := h.writeField tio ptr .pointers hA hpad rfl M coins
  refine ⟨s', hrun, ?_⟩
  rw [← Nodes.array_writePointers, ← secretIndex_eq hA]
  exact hs'

/-- `A[ptr].NODE_VALUE = M`. -/
theorem write_value (M : Player → RegXS) (coins : WideCoins NodeField.Reg) :
    ∃ s', WideState.writeField tio s (.sub A) ptr .value M coins = some s' ∧
      s'.Holds oramSize (mem.writeValue A (A.index (reveal ptr)) (reveal M)).array := by
  obtain ⟨s', hrun, hs'⟩ := h.writeField tio ptr .value hA hpad rfl M coins
  refine ⟨s', hrun, ?_⟩
  rw [← Nodes.array_writeValue, ← secretIndex_eq hA]
  exact hs'

end WideState.Holds

/-- `A[idx] = M` with an explicit index. -/
theorem WideState.Holds.set_node (h : s.Holds oramSize mem.array) (hpad : A.PadFree) {idx : Nat}
    (hidx : idx < A.size) (M blind : ∀ f : NodeField, Player → f.Reg) :
    (s.explWrite (.sub A) idx M blind).Holds oramSize (mem.set A idx (revealNode M)).array := by
  refine ⟨fun f => ?_, h.mode⟩
  have hf := (h.fields f).explWrite (.sub A) hpad hidx (M f) (blind f)
  have hentries : (mem.array.field f).replace A idx (M f .p0 + M f .p1) =
      fun addr => (mem.set A idx (revealNode M)).array.entries addr f := by
    funext addr
    have hregs {T : Type} [Register T] (w : Words) (v : Value) :
        (regs w : PlainArray T).replace A idx (Register.set v) addr = Register.set (A.set w idx v addr) := by
      rw [regs_replace, if_pos hidx]
    cases f with
    | key => exact hregs mem.key (reveal (M .key))
    | pointers => exact hregs mem.pointers (reveal (M .pointers))
    | value => exact hregs mem.value (reveal (M .value))
  rw [show Via.shape (.sub A) = A from rfl, hentries] at hf
  exact hf

end Access

end Prac
