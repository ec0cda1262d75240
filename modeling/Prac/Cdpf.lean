import Prac.Dpf
import Prac.Bitutils
import Prac.Lib.Loop
import Prac.Lib.Cyclic

/-!
# DPFs for comparisons (`cdpf.hpp`, `cdpf.cpp`, `cdpf.tcc`)

* `CDPF`, `CDPF.generate` — P2's generation of the two halves, one level at a time along the path
  to the target.
* `CDPF.compareLocal`, `CDPF.isZeroLocal` — evaluation at the opened difference `S = target - x`.
* `CDPF.compare`, `CDPF.isZero` — the two-party protocols.
-/

namespace Prac

open Loop Cyclic

/-- `CDPF`. -/
structure CDPF extends DPF where
  asTarget : RegAS
  xsTarget : RegXS
  leafCwr : DPFnode

namespace CDPF

/-- `depth`: `VALUE_BITS - 7`, since a leaf stands for the 128 values of seven more levels. -/
def depth : Nat := 57

theorem depth_eq : depth = 57 := rfl

/-- `CDPF::descend_to_leaf`. -/
def descendToLeaf (prg : DPFnode → Bool → DPFnode) (dpf : CDPF) (parent : DPFnode)
    (whichchild : Bool) : DPFnode :=
  let flag := getLsb parent
  let prgout := prg parent whichchild
  if flag then
    let CW := dpf.cw.getLastD 0
    let CWR := dpf.leafCwr
    prgout ^^^ (if whichchild then CWR else CW)
  else prgout

/-! ## Generation -/

/-- The two halves under generation, and the current nodes of their trees. -/
structure Generation where
  dpf : Player → CDPF
  cur : Player → DPFnode

/-- The state before the loop: random seeds with their flag bits set apart, and shares of the
target. -/
def generateInit (seeds : Player → DPFnode) (asTarget : RegAS) (xsTarget : RegXS) (target : Value) :
    Generation where
  dpf p :=
    { seed := setLsb (seeds p) p.bit
      whichhalf := p.bit
      cw := []
      cfbits := 0
      asTarget := if p.bit then ⟨target - asTarget.ashare⟩ else asTarget
      xsTarget := if p.bit then ⟨target ^^^ xsTarget.xshare⟩ else xsTarget
      leafCwr := 0 }
  cur p := setLsb (seeds p) p.bit

/-- `target_set_bit`: the 128-bit word with only the target's bit set. -/
def targetSetBit (target : Value) : DPFnode :=
  let loc := (target &&& 0x7f).toNat
  let hi : Value := if loc ≥ 64 then BitVec.twoPow 64 (loc - 64) else 0
  let lo : Value := if loc ≥ 64 then 0 else BitVec.twoPow 64 loc
  hi ++ lo

/-- One level of `CDPF::generate`. -/
def generateStep (prg : DPFnode → Bool → DPFnode) (target : Value) (curlevel : Nat)
    (g : Generation) : Generation :=
  let left p := prg (g.cur p) false
  let right p := prg (g.cur p) true
  let targetdir := target.getLsbD (depth + 7 - curlevel - 1)
  let cfbit := !getLsb (left .p0 ^^^ left .p1 ^^^ right .p0 ^^^ right .p1)
  let flag p := getLsb (g.cur p)
  let push p CW := (g.dpf p).pushLevel curlevel CW cfbit
  if curlevel < depth - 1 then
    if targetdir = false then
      let CW := right .p0 ^^^ right .p1 ^^^ lsb128Mask cfbit
      { dpf := fun p => { g.dpf p with toDPF := push p CW }
        cur := fun p => xorIf (left p) CW (flag p) }
    else
      let CW := left .p0 ^^^ left .p1
      let CWR := CW ^^^ lsb128Mask cfbit
      { dpf := fun p => { g.dpf p with toDPF := push p CW }
        cur := fun p => xorIf (right p) CWR (flag p) }
  else if targetdir = false then
    let CW := left .p0 ^^^ left .p1 ^^^ targetSetBit target
    let CWR := right .p0 ^^^ right .p1
    { g with dpf := fun p => { g.dpf p with toDPF := push p CW, leafCwr := CWR } }
  else
    let CW := left .p0 ^^^ left .p1
    let CWR := right .p0 ^^^ right .p1 ^^^ targetSetBit target
    { g with dpf := fun p => { g.dpf p with toDPF := push p CW, leafCwr := CWR } }

/-- `CDPF::generate`. -/
def generate (prg : DPFnode → Bool → DPFnode) (seeds : Player → DPFnode) (asTarget : RegAS)
    (xsTarget : RegXS) (target : Value) : Player → CDPF :=
  (forRange 0 depth (generateStep prg target) (generateInit seeds asTarget xsTarget target)).dpf

/-! ## Evaluation -/

/-- The state of the comparison loop: the nodes on the paths to `S` and to `T = S + 2^63`, and the
bits gathered so far. -/
structure CompareState where
  Snode : DPFnode
  Tnode : DPFnode
  gt : Bool

/-- The first level of the comparison, where the two paths part. -/
def compareInit (prg : DPFnode → Bool → DPFnode) (dpf : CDPF) (S : Value) : CompareState :=
  let Sdir := S.getLsbD 63
  { Snode := dpf.descend prg dpf.seed 0 Sdir
    Tnode := dpf.descend prg dpf.seed 0 !Sdir
    gt := false }

/-- One iteration of the comparison loop: both paths go the same way, and the flag of the sibling
that lies between them is gathered. -/
def compareStep (prg : DPFnode → Bool → DPFnode) (dpf : CDPF) (S : Value) (curlevel : Nat)
    (s : CompareState) : CompareState :=
  let Sdir := S.getLsbD (depth + 7 - curlevel - 1)
  let Sparent := s.Snode
  let Tparent := s.Tnode
  let Snode := dpf.descend prg Sparent curlevel Sdir
  let Tnode := dpf.descend prg Tparent curlevel Sdir
  { Snode := Snode
    Tnode := Tnode
    gt := s.gt ^^ if Sdir = false then getLsb Sparent ^^ getLsb Snode
      else getLsb Tparent ^^ getLsb Tnode }

/-- The last level of the comparison: whole leaves are gathered by their parity. -/
def compareLeaf (prg : DPFnode → Bool → DPFnode) (dpf : CDPF) (S : Value) (s : CompareState) :
    CompareState :=
  let Sdir := S.getLsbD (depth + 7 - (depth - 1) - 1)
  let Sparent := s.Snode
  let Tparent := s.Tnode
  let Snode := dpf.descendToLeaf prg Sparent Sdir
  let Tnode := dpf.descendToLeaf prg Tparent Sdir
  { Snode := Snode
    Tnode := Tnode
    gt := s.gt ^^ if Sdir = false then getLsb Sparent ^^ parity Snode
      else getLsb Tparent ^^ parity Tnode }

/-- `CDPF::compare(value_t S, …)`: shares of `lt`, `eq` and `gt`. -/
def compareLocal (prg : DPFnode → Bool → DPFnode) (dpf : CDPF) (S : Value) :
    RegBS × RegBS × RegBS :=
  let s := compareLeaf prg dpf S
    (forRange 1 (depth - 1) (compareStep prg dpf S) (compareInit prg dpf S))
  let Spos := (S &&& 0x7f).toNat
  let eq := bitAt s.Snode Spos
  let gt := s.gt ^^ parityAbove s.Snode Spos ^^ parityBelow s.Tnode Spos
  let lt := dpf.whichhalf ^^ eq ^^ gt
  (⟨lt⟩, ⟨eq⟩, ⟨gt⟩)

/-- `CDPF::is_zero(value_t S, …)`: a share of `eq`. -/
def isZeroLocal (prg : DPFnode → Bool → DPFnode) (dpf : CDPF) (S : Value) : RegBS :=
  let Snode := dpf.descend prg dpf.seed 0 (S.getLsbD 63)
  let Snode := forRange 1 (depth - 1) (fun curlevel Snode =>
    dpf.descend prg Snode curlevel (S.getLsbD (depth + 7 - curlevel - 1))) Snode
  let Snode := dpf.descendToLeaf prg Snode (S.getLsbD (depth + 7 - (depth - 1) - 1))
  ⟨bitAt Snode (S &&& 0x7f).toNat⟩

/-- `CDPF::compare(MPCTIO &tio, …)`: open `S = target - x`, then evaluate. -/
def compare (prg : DPFnode → Bool → DPFnode) (dpf : Player → CDPF) (x : Player → RegAS)
    (p : Player) : RegBS × RegBS × RegBS :=
  let SShare q := (dpf q).asTarget - x q
  compareLocal prg (dpf p) ((SShare p).ashare + (SShare p.peer).ashare)

/-- The share types that `is_zero` is templated over. -/
class Shared (T : Type) [Add T] [Sub T] where
  getTarget : CDPF → T
  share : T → Value

instance : Shared RegAS := ⟨CDPF.asTarget, RegAS.ashare⟩
instance : Shared RegXS := ⟨CDPF.xsTarget, RegXS.xshare⟩

/-- `CDPF::is_zero(MPCTIO &tio, …)`. -/
def isZero {T : Type} [Add T] [Sub T] [Shared T] (prg : DPFnode → Bool → DPFnode)
    (dpf : Player → CDPF) (x : Player → T) (p : Player) : RegBS :=
  let SShare q := Shared.getTarget (dpf q) - x q
  isZeroLocal prg (dpf p) (Shared.share (SShare p + SShare p.peer))

end CDPF

end Prac
