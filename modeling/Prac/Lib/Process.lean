import Mathlib.Data.List.OfFn
import Mathlib.Order.Fin.Basic

/-!
# Sequential processes over a byte channel

* `Proc` — a process that writes and reads messages under labels and returns a value, with `Proc.bind`
  and `Proc.all`, the processes of a finite family one after the other.
* `Traffic` — what passes over the channel: the label of every byte read, and of every byte written.
* `Meets` — a process moves exactly this traffic, whatever bytes it receives, and returns a value with
  a given property; the rules `Meets.bind` and `Meets.all`.
-/

namespace Channel

/-- A process: it returns, or writes or reads a message under a label and continues. -/
inductive Proc (ι α β : Type) where
  | pure (b : β)
  | write (label : ι) (data : List α) (next : Proc ι α β)
  | read (label : ι) (len : Nat) (next : List α → Proc ι α β)

variable {ι α β γ : Type}

/-- One process, then the process that its value selects. -/
def Proc.bind (x : Proc ι α β) (f : β → Proc ι α γ) : Proc ι α γ :=
  match x with
  | .pure b => f b
  | .write label data next => .write label data (next.bind f)
  | .read label len next => .read label len fun data => (next data).bind f

/-- The processes of a family, in order. -/
def Proc.all : (n : Nat) → (Fin n → Proc ι α β) → Proc ι α (Fin n → β)
  | 0, _ => .pure Fin.elim0
  | n + 1, procs => (procs 0).bind fun b =>
      (Proc.all n fun i => procs i.succ).bind fun bs => .pure (Fin.cons b bs)

/-- The label of every byte read and of every byte written, in order. -/
@[ext] structure Traffic (ι : Type) where
  reads : List ι
  writes : List ι

namespace Traffic

/-- No traffic. -/
def none : Traffic ι := ⟨[], []⟩

/-- The traffic of one process after that of another. -/
def append (s t : Traffic ι) : Traffic ι := ⟨s.reads ++ t.reads, s.writes ++ t.writes⟩

/-- The traffic of a family, in order. -/
def concat {n : Nat} (traffic : Fin n → Traffic ι) : Traffic ι :=
  ⟨(List.ofFn fun i => (traffic i).reads).flatten, (List.ofFn fun i => (traffic i).writes).flatten⟩

@[simp] theorem none_reads : (none : Traffic ι).reads = [] := rfl
@[simp] theorem none_writes : (none : Traffic ι).writes = [] := rfl
@[simp] theorem append_reads (s t : Traffic ι) : (s.append t).reads = s.reads ++ t.reads := rfl
@[simp] theorem append_writes (s t : Traffic ι) : (s.append t).writes = s.writes ++ t.writes := rfl

@[simp] theorem append_none (s : Traffic ι) : s.append none = s := by
  simp [append]

@[simp] theorem none_append (s : Traffic ι) : none.append s = s := by
  simp [append]

theorem append_assoc (s t u : Traffic ι) : (s.append t).append u = s.append (t.append u) := by
  simp [append]

theorem append_cancel {s t u : Traffic ι} (h : s.append t = s.append u) : t = u := by
  simp only [append, Traffic.mk.injEq, List.append_cancel_left_eq] at h
  exact Traffic.ext h.1 h.2

theorem concat_succ {n : Nat} (traffic : Fin (n + 1) → Traffic ι) :
    concat traffic = (traffic 0).append (concat fun i => traffic i.succ) := by
  simp [concat, append]

end Traffic

/-- The process moves the traffic, whatever it receives, and returns a value with the property. -/
inductive Meets (post : β → Prop) : Proc ι α β → Traffic ι → Prop where
  | pure {b : β} (hb : post b) : Meets post (.pure b) .none
  | write {label : ι} {data : List α} {next : Proc ι α β} {s : Traffic ι} (hnext : Meets post next s) :
      Meets post (.write label data next) (Traffic.append ⟨[], List.replicate data.length label⟩ s)
  | read {label : ι} {len : Nat} {next : List α → Proc ι α β} {s : Traffic ι}
      (hnext : ∀ data, data.length = len → Meets post (next data) s) :
      Meets post (.read label len next) (Traffic.append ⟨List.replicate len label, []⟩ s)

theorem Meets.bind {post : β → Prop} {post' : γ → Prop} {x : Proc ι α β} {f : β → Proc ι α γ}
    {s t : Traffic ι} (hx : Meets post x s) (hf : ∀ b, post b → Meets post' (f b) t) :
    Meets post' (x.bind f) (s.append t) := by
  induction hx with
  | pure hb =>
      rw [Traffic.none_append]
      exact hf _ hb
  | write _ ih =>
      rw [Traffic.append_assoc]
      exact .write ih
  | read _ ih =>
      rw [Traffic.append_assoc]
      exact .read fun data hdata => ih data hdata

theorem Meets.all {n : Nat} {post : Fin n → β → Prop} {procs : Fin n → Proc ι α β}
    {traffic : Fin n → Traffic ι} (h : ∀ i, Meets (post i) (procs i) (traffic i)) :
    Meets (fun bs => ∀ i, post i (bs i)) (Proc.all n procs) (Traffic.concat traffic) := by
  induction n with
  | zero =>
      exact .pure fun i => i.elim0
  | succ n ih =>
      rw [Traffic.concat_succ, Proc.all]
      refine (h 0).bind fun b hb => ?_
      rw [← Traffic.append_none (Traffic.concat _)]
      refine (ih fun i => h i.succ).bind fun bs hbs => .pure fun i => ?_
      cases i using Fin.cases with
      | zero => exact hb
      | succ i => exact hbs i

end Channel
