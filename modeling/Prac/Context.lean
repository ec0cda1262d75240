import Prac.Shapes

/-!
# Shape objects and their contexts (`duoram.hpp`, `duoram.tcc`, `shapes.hpp`, `shapes.tcc`)

`Shape.cell` follows the nesting of the constructors.  Here the objects that they create are explicit,
since `get_comp` and `get_server` recognise the topmost shape by identity: it is its own parent.

* `ShapeObject` — the members of a shape; the objects of a program are numbered as they are created.
* `getComp` — the chain of parents, as `get_comp` and `get_server` follow it.
* `construct` — the constructors, and `getComp_construct`: what they build resolves as `Shape.cell`.
* `context`, `contexts` — the copy that `context()` returns; `context_preserves_iff` — when it reaches
  the same cells.
-/

namespace Prac

/-- The members that a subclass adds to `Shape`. -/
inductive ShapeKind where
  | flat (start len : Nat)
  | stride (offset step : Nat)
  | path (targetNode : Nat)
  | pad (padval : Value)

/-- The members of a shape: the object that the reference `parent` is bound to, the size, and the
members of the subclass. -/
structure ShapeObject where
  parent : Nat
  shapeSize : Nat
  kind : ShapeKind

namespace ShapeObject

/-- `indexmap`. -/
def indexmap (obj : ShapeObject) (idx : Nat) : Nat :=
  match obj.kind with
  | .flat start _ => idx + start
  | .stride offset step => offset + idx * step
  | .path targetNode => targetNode >>> (obj.shapeSize - idx - 1)
  | .pad _ => idx

end ShapeObject

/-- The size of object `self`. -/
def sizeOfObject (objs : List ShapeObject) (self : Nat) : Nat :=
  (objs[self]?.map ShapeObject.shapeSize).getD 0

/-- `get_comp` and `get_server`.  A parent is the object itself or one that was created before. -/
def getComp (objs : List ShapeObject) (self idx : Nat) : Cell :=
  match objs[self]? with
  | none => .mem idx
  | some obj =>
    let parindex := obj.indexmap idx
    match obj.kind with
    | .pad padval =>
      if parindex < sizeOfObject objs obj.parent then
        if obj.parent < self then getComp objs obj.parent parindex else .mem parindex
      else .pad padval
    | _ =>
      if obj.parent = self then .mem parindex
      else if obj.parent < self then getComp objs obj.parent parindex else .mem parindex
termination_by self

/-! ## Constructors -/

/-- The constructors of the shapes, each of which creates an object: the objects then, and the number of
the new one. -/
def construct {oramSize : Nat} : Shape oramSize → List ShapeObject → List ShapeObject × Nat
  | .flat start len, objs =>
    let parentsize := oramSize
    let len := flatLen parentsize start len
    (objs ++ [⟨objs.length, len, .flat (min start parentsize) len⟩], objs.length)
  | .subflat parent start len, objs =>
    let (objs, parent) := construct parent objs
    let parentsize := sizeOfObject objs parent
    let len := flatLen parentsize start len
    (objs ++ [⟨parent, len, .flat (min start parentsize) len⟩], objs.length)
  | .stride parent offset step, objs =>
    let (objs, parent) := construct parent objs
    let parentsize := sizeOfObject objs parent
    let numelements := strideNumElements parentsize offset step
    (objs ++ [⟨parent, numelements, .stride (min offset parentsize) step⟩], objs.length)
  | .path parent targetNode, objs =>
    let (objs, parent) := construct parent objs
    (objs ++ [⟨parent, pathNumNodes targetNode, .path targetNode⟩], objs.length)
  | .pad parent paddedSize padval, objs =>
    let (objs, parent) := construct parent objs
    (objs ++ [⟨parent, paddedSize, .pad padval⟩], objs.length)

/-! ## Contexts -/

/-- `context`: the copy of an object, which keeps the parent of the original. -/
def context (objs : List ShapeObject) (self : Nat) : List ShapeObject × Nat :=
  (objs ++ objs[self]?.toList, objs.length)

/-- `context` applied `n` times. -/
def contexts : Nat → List ShapeObject → Nat → List ShapeObject × Nat
  | 0, objs, self => (objs, self)
  | n + 1, objs, self =>
    let (objs, copy) := contexts n objs self
    context objs copy

/-! ## Resolution -/

/-- Every parent is the object itself or an earlier one. -/
def ParentsPrecede (objs : List ShapeObject) : Prop :=
  ∀ i (obj : ShapeObject), objs[i]? = some obj → obj.parent ≤ i

/-- What an object reaches through a parent other than itself. -/
def throughParent (objs : List ShapeObject) (obj : ShapeObject) (idx : Nat) : Cell :=
  match obj.kind with
  | .pad padval =>
    if obj.indexmap idx < sizeOfObject objs obj.parent then
      getComp objs obj.parent (obj.indexmap idx)
    else .pad padval
  | _ => getComp objs obj.parent (obj.indexmap idx)

theorem getComp_of_lt {objs : List ShapeObject} {self : Nat} {obj : ShapeObject}
    (hobj : objs[self]? = some obj) (hlt : obj.parent < self) (idx : Nat) :
    getComp objs self idx = throughParent objs obj idx := by
  rw [getComp, hobj]
  unfold throughParent
  cases hkind : obj.kind with
  | pad padval => simp only [hkind, if_pos hlt]
  | flat start len => simp only [hkind, if_neg hlt.ne, if_pos hlt]
  | stride offset step => simp only [hkind, if_neg hlt.ne, if_pos hlt]
  | path targetNode => simp only [hkind, if_neg hlt.ne, if_pos hlt]

/-- The topmost shape ends the chain. -/
theorem getComp_of_eq {objs : List ShapeObject} {self start len : Nat} {obj : ShapeObject}
    (hobj : objs[self]? = some obj) (hself : obj.parent = self) (hkind : obj.kind = .flat start len)
    (idx : Nat) : getComp objs self idx = .mem (idx + start) := by
  rw [getComp, hobj]
  simp only [hkind, if_pos hself, ShapeObject.indexmap]

theorem sizeOfObject_append {objs extra : List ShapeObject} {self : Nat} (h : self < objs.length) :
    sizeOfObject (objs ++ extra) self = sizeOfObject objs self := by
  unfold sizeOfObject
  rw [List.getElem?_append_left h]

/-- Objects that are created later change nothing. -/
theorem getComp_append {objs : List ShapeObject} (hobjs : ParentsPrecede objs) (extra : List ShapeObject)
    {self : Nat} (h : self < objs.length) (idx : Nat) :
    getComp (objs ++ extra) self idx = getComp objs self idx := by
  induction self using Nat.strong_induction_on generalizing idx with
  | _ self ih =>
      obtain ⟨obj, hobj⟩ : ∃ obj, objs[self]? = some obj := ⟨_, List.getElem?_eq_getElem h⟩
      have hobj' : (objs ++ extra)[self]? = some obj := by rw [List.getElem?_append_left h, hobj]
      rcases (hobjs self obj hobj).lt_or_eq with hlt | heq
      · have hparent : obj.parent < objs.length := hlt.trans h
        rw [getComp_of_lt hobj hlt, getComp_of_lt hobj' hlt]
        unfold throughParent
        rw [sizeOfObject_append hparent, ih obj.parent hlt hparent]
      · rw [getComp, getComp, hobj, hobj']
        simp only [heq, lt_irrefl, if_false, sizeOfObject_append h]

theorem throughParent_append {objs : List ShapeObject} (hobjs : ParentsPrecede objs)
    (extra : List ShapeObject) {obj : ShapeObject} (h : obj.parent < objs.length) (idx : Nat) :
    throughParent (objs ++ extra) obj idx = throughParent objs obj idx := by
  unfold throughParent
  rw [sizeOfObject_append h, getComp_append hobjs extra h]

theorem ParentsPrecede.push {objs : List ShapeObject} (hobjs : ParentsPrecede objs) {obj : ShapeObject}
    (h : obj.parent ≤ objs.length) : ParentsPrecede (objs ++ [obj]) := by
  intro i obj' hobj'
  rcases Nat.lt_or_ge i objs.length with hlt | hge
  · rw [List.getElem?_append_left hlt] at hobj'
    exact hobjs i obj' hobj'
  · rw [List.getElem?_append_right hge, List.getElem?_singleton] at hobj'
    split at hobj'
    · obtain rfl := Option.some.inj hobj'
      omega
    · cases hobj'

/-- A new object reaches what its parent does, at the index it maps to. -/
theorem getComp_push {objs : List ShapeObject} (hobjs : ParentsPrecede objs) {obj : ShapeObject}
    (h : obj.parent < objs.length) (idx : Nat) :
    getComp (objs ++ [obj]) objs.length idx = throughParent objs obj idx := by
  rw [getComp_of_lt List.getElem?_concat_length h, throughParent_append hobjs [obj] h]

/-- What a constructor leaves behind: a new object that resolves as the shape does. -/
structure Constructed {oramSize : Nat} (shape : Shape oramSize) (objs : List ShapeObject)
    (res : List ShapeObject × Nat) : Prop where
  extends_objs : ∃ extra, res.1 = objs ++ extra
  parents : ParentsPrecede res.1
  live : res.2 < res.1.length
  size : sizeOfObject res.1 res.2 = shape.size
  resolves : ∀ idx, getComp res.1 res.2 idx = shape.cell idx

theorem sizeOfObject_push (objs : List ShapeObject) (obj : ShapeObject) :
    sizeOfObject (objs ++ [obj]) objs.length = obj.shapeSize := by
  unfold sizeOfObject
  rw [List.getElem?_concat_length]
  rfl

/-- A constructor on a parent shape. -/
theorem Constructed.push {oramSize : Nat} {parent shape : Shape oramSize} {objs : List ShapeObject}
    {res : List ShapeObject × Nat} (h : Constructed parent objs res) {obj : ShapeObject}
    (hparent : obj.parent = res.2) (hsize : obj.shapeSize = shape.size)
    (hresolves : ∀ idx, throughParent res.1 obj idx = shape.cell idx) :
    Constructed shape objs (res.1 ++ [obj], res.1.length) := by
  have hlt : obj.parent < res.1.length := hparent ▸ h.live
  obtain ⟨extra, hextra⟩ := h.extends_objs
  refine ⟨⟨extra ++ [obj], ?_⟩, h.parents.push hlt.le, ?_, ?_, ?_⟩
  · rw [hextra, List.append_assoc]
  · rw [List.length_append]
    exact Nat.lt_succ_self _
  · rw [sizeOfObject_push, hsize]
  · intro idx
    rw [getComp_push h.parents hlt, hresolves]

/-- **The constructors.**  The object of a nesting of constructors resolves as `Shape.cell` says. -/
theorem getComp_construct {oramSize : Nat} (shape : Shape oramSize) {objs : List ShapeObject}
    (hobjs : ParentsPrecede objs) : Constructed shape objs (construct shape objs) := by
  induction shape with
  | flat start len =>
      refine ⟨⟨_, rfl⟩, hobjs.push le_rfl, ?_, ?_, ?_⟩
      · simp [construct]
      · rw [construct, sizeOfObject_push]
        rfl
      · intro idx
        exact getComp_of_eq List.getElem?_concat_length rfl rfl idx
  | subflat parent start len ih =>
      refine @Constructed.push _ _ _ _ _ ih ⟨_, _, .flat _ _⟩ rfl ?_ ?_
      · rw [ih.size]
        rfl
      · intro idx
        rw [throughParent, ih.resolves, ih.size]
        rfl
  | stride parent offset step ih =>
      refine @Constructed.push _ _ _ _ _ ih ⟨_, _, .stride _ _⟩ rfl ?_ ?_
      · rw [ih.size]
        rfl
      · intro idx
        rw [throughParent, ih.resolves, ih.size]
        rfl
  | path parent targetNode ih =>
      refine @Constructed.push _ _ _ _ _ ih ⟨_, _, .path _⟩ rfl rfl ?_
      intro idx
      rw [throughParent, ih.resolves]
      rfl
  | pad parent paddedSize padval ih =>
      refine @Constructed.push _ _ _ _ _ ih ⟨_, _, .pad _⟩ rfl rfl ?_
      intro idx
      rw [throughParent, ih.resolves, ih.size]
      rfl

/-! ## Copies -/

/-- The object of a shape is its own parent if the shape is topmost, and has an earlier one otherwise. -/
theorem construct_object {oramSize : Nat} (shape : Shape oramSize) :
    ∃ obj, (construct shape []).1[(construct shape []).2]? = some obj ∧
      ((∃ start len, shape = .flat start len ∧ obj.parent = (construct shape []).2 ∧
          obj.kind = .flat (min start oramSize) (flatLen oramSize start len)) ∨
        (∀ start len, shape ≠ .flat start len) ∧ obj.parent < (construct shape []).2) := by
  have hobjs : ParentsPrecede [] := fun i obj h => by simp at h
  cases shape with
  | flat start len => exact ⟨_, List.getElem?_concat_length, Or.inl ⟨start, len, rfl, rfl, rfl⟩⟩
  | subflat parent start len =>
      exact ⟨_, List.getElem?_concat_length, Or.inr ⟨nofun, (getComp_construct parent hobjs).live⟩⟩
  | stride parent offset step =>
      exact ⟨_, List.getElem?_concat_length, Or.inr ⟨nofun, (getComp_construct parent hobjs).live⟩⟩
  | path parent targetNode =>
      exact ⟨_, List.getElem?_concat_length, Or.inr ⟨nofun, (getComp_construct parent hobjs).live⟩⟩
  | pad parent paddedSize padval =>
      exact ⟨_, List.getElem?_concat_length, Or.inr ⟨nofun, (getComp_construct parent hobjs).live⟩⟩

/-- However often a context is taken, the copy has the members of the original, its parent included. -/
theorem contexts_object {objs : List ShapeObject} {self : Nat} {obj : ShapeObject}
    (hobj : objs[self]? = some obj) (hparent : obj.parent ≤ self) (n : Nat) :
    (∃ extra, (contexts (n + 1) objs self).1 = objs ++ extra) ∧
      (contexts (n + 1) objs self).1[(contexts (n + 1) objs self).2]? = some obj ∧
      obj.parent < (contexts (n + 1) objs self).2 := by
  have hself : self < objs.length := (List.getElem?_eq_some_iff.mp hobj).1
  induction n with
  | zero =>
      simp only [contexts, context, hobj, Option.toList_some]
      exact ⟨⟨_, rfl⟩, List.getElem?_concat_length, by omega⟩
  | succ n ih =>
      obtain ⟨⟨extra, hextra⟩, hcopy, hlt⟩ := ih
      obtain ⟨res, hres⟩ : ∃ res, res = contexts (n + 1) objs self := ⟨_, rfl⟩
      have hsucc : contexts (n + 1 + 1) objs self = context res.1 res.2 := by rw [hres]; rfl
      rw [← hres] at hextra hcopy hlt
      have hlive : res.2 < res.1.length := (List.getElem?_eq_some_iff.mp hcopy).1
      rw [hsucc]
      simp only [context, hcopy, Option.toList_some]
      refine ⟨⟨extra ++ [obj], by rw [hextra, List.append_assoc]⟩, List.getElem?_concat_length, ?_⟩
      omega

/-- **Contexts.**  The copy that any number of calls of `context` return reaches the same cells as the
shape, if and only if there is no call, no index, or the shape is not a topmost `Flat` with a start
other than 0. -/
theorem context_preserves_iff {oramSize : Nat} (shape : Shape oramSize) (n : Nat) :
    let res := construct shape []
    let copy := contexts n res.1 res.2
    (∀ idx < shape.size, getComp copy.1 copy.2 idx = getComp res.1 res.2 idx) ↔
      n = 0 ∨ shape.size = 0 ∨ ∀ start len, shape = .flat start len → start = 0 := by
  intro res copy
  have hobjs : ParentsPrecede [] := fun i obj h => by simp at h
  have hres : Constructed shape [] res := getComp_construct shape hobjs
  cases n with
  | zero => exact iff_of_true (fun _ _ => rfl) (Or.inl rfl)
  | succ n =>
      obtain ⟨obj, hobj, hkind⟩ := construct_object shape
      have hparent : obj.parent ≤ res.2 := hres.parents _ _ hobj
      have hlive : obj.parent < res.1.length := hparent.trans_lt hres.live
      obtain ⟨⟨extra, hextra⟩, hcopy, hlt⟩ := contexts_object hobj hparent n
      have hthrough : ∀ idx, getComp copy.1 copy.2 idx = throughParent res.1 obj idx := by
        intro idx
        rw [getComp_of_lt hcopy hlt, hextra, throughParent_append hres.parents extra hlive]
      rcases hkind with ⟨start, len, rfl, htop, hflat⟩ | ⟨hnot, hbelow⟩
      · have hdouble : ∀ idx, getComp copy.1 copy.2 idx =
            .mem (idx + min start oramSize + min start oramSize) := by
          intro idx
          rw [hthrough, throughParent, hflat]
          simp only [ShapeObject.indexmap, hflat, htop]
          exact getComp_of_eq hobj htop hflat _
        have horig : ∀ idx, getComp res.1 res.2 idx = .mem (idx + min start oramSize) :=
          getComp_of_eq hobj htop hflat
        simp only [hdouble, horig, Cell.mem.injEq, Nat.succ_ne_zero, false_or, Shape.flat.injEq]
        constructor
        · intro h
          rcases Nat.eq_zero_or_pos (Shape.flat start len : Shape oramSize).size with hzero | hpos
          · exact Or.inl hzero
          · right
            rintro start len ⟨rfl, rfl⟩
            have hsame := h 0 hpos
            have hsize : 0 + min start oramSize < oramSize := Shape.add_lt_of_lt_flatLen hpos
            omega
        · rintro (hzero | hstart) idx hidx
          · omega
          · have := hstart start len ⟨rfl, rfl⟩
            omega
      · refine iff_of_true ?_ (Or.inr (Or.inr fun start len h => absurd h (hnot start len)))
        intro idx _
        rw [hthrough, getComp_of_lt hobj hbelow]

/-- The context of the upper half of a memory reaches past its end. -/
theorem context_reaches_past :
    let res := construct (.flat 2 2 : Shape 4) []
    let copy := contexts 1 res.1 res.2
    0 < (.flat 2 2 : Shape 4).size ∧ getComp res.1 res.2 0 = .mem 2 ∧
      getComp copy.1 copy.2 0 = .mem 4 := by
  intro res copy
  refine ⟨by decide, ?_, ?_⟩
  · exact (getComp_construct (.flat 2 2 : Shape 4) fun i obj h => by simp at h).resolves 0
  · rw [getComp_of_lt rfl (by decide : (0 : Nat) < 1), throughParent]
    exact @getComp_of_eq _ 0 2 2 ⟨0, 2, .flat 2 2⟩ rfl rfl rfl _

end Prac
