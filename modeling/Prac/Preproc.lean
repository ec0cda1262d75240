import Prac.Bitutils
import Prac.Lib.Bytes
import Prac.Lib.CString

/-!
# Preprocessing jobs (`preproc.cpp`, `mpcio.cpp`)

The server reads from its arguments what is to be precomputed, makes the coroutines for it, and queues for P0
and P1 what they need to make theirs.

* `Job`, `serverArg`, `threadArgs`, `preprocessingServer` — the server's side, for one thread.
* `compJob`, `preprocessingComp` — P0's and P1's.
* `preprocessing_agree` — the three parties have the same jobs, and P0 and P1 have read nothing else, if and
  only if the server was given no width that the others do not know.
-/

namespace Prac

open Bytes CString

/-- What can be precomputed. -/
inductive JobKind where
  | mult
  | half
  | and
  | select
  | rdpf (depth : Nat) (incremental : Bool) (width : Nat)
  | cdpf
  | counter
  deriving DecidableEq

/-- A number of objects of one kind, each with a coroutine; the counter has one in all. -/
structure Job where
  kind : JobKind
  num : BitVec 32
  deriving DecidableEq

/-! ## The server -/

namespace JobKind

def typetag : JobKind → UInt8
  | mult => 0x80
  | half => 0x81
  | and => 0x82
  | select => 0x83
  | rdpf depth _ _ => UInt8.ofNat depth
  | cdpf => 0x40
  | counter => 0x8e

def subtypetag : JobKind → UInt8
  | rdpf _ incremental width => UInt8.ofNat (if incremental then width + 0x80 else width)
  | _ => 0

end JobKind

/-- What is queued for a job: type, subtype and number. -/
def Job.header (job : Job) : List UInt8 :=
  job.kind.typetag :: job.kind.subtypetag :: leBytes 4 job.num.toNat

/-- The width behind the dot, which is an `unsigned char`, and what stands before it. -/
def splitWidth (type : List Char) : List Char × Nat :=
  match strchr '.' type with
  | some (type, widthstr) => (type, (BitVec.ofInt 8 (atoi widthstr)).toNat)
  | none => (type, 1)

/-- A `type` that starts with `r` or `i`. -/
def serverRdpf (type : List Char) (incremental : Bool) (num : BitVec 32) : Except String (Option Job) :=
  let (type, width) := splitWidth type
  let depth := atoi type.tail
  if depth < 1 ∨ 48 < depth then .error "Invalid DPF depth\n"
  else .ok (some ⟨.rdpf depth.toNat incremental width, num⟩)

/-- One argument: a job, or nothing if the type is none that is known, or what is reported. -/
def serverArg (arg : List Char) : Except String (Option Job) :=
  match strchr ':' arg with
  | none => .error "Args must be type:num\n"
  | some (type, number) =>
    let num := BitVec.ofInt 32 (atoi number)
    if type = ['m'] then .ok (some ⟨.mult, num⟩)
    else if type = ['h'] then .ok (some ⟨.half, num⟩)
    else if type = ['a'] then .ok (some ⟨.and, num⟩)
    else if type = ['s'] then .ok (some ⟨.select, num⟩)
    else if type.head? = some 'r' ∨ type.head? = some 'i' then
      serverRdpf type (type.head? = some 'i') num
    else if type = ['c'] then .ok (some ⟨.cdpf, num⟩)
    else if type = ['k'] then .ok (some ⟨.counter, num⟩)
    else .ok none

/-- What a thread of the server has done before it runs its coroutines.  P0 and P1 are sent the same. -/
structure ServerScan where
  stderr : List String
  queued : List UInt8
  jobs : List Job
  deriving DecidableEq

/-- The loop over a thread's arguments, and the end mark. -/
def serverLoop : List (List Char) → ServerScan
  | [] => ⟨[], [0], []⟩
  | arg :: args =>
    let rest := serverLoop args
    match serverArg arg with
    | .error message => { rest with stderr := message :: rest.stderr }
    | .ok none => rest
    | .ok (some job) => { rest with queued := job.header ++ rest.queued, jobs := job :: rest.jobs }

/-- `threadargs[0][0] == 'T'`. -/
def isMarker (arg : List Char) : Bool := arg.head? = some 'T'

/-- The marker of a thread's arguments. -/
def marker (thread : Nat) : List Char := 'T' :: decimal thread

/-- The arguments of a thread: those after its marker, if there are markers, up to the next one. -/
def threadArgs (thread : Nat) (args : List (List Char)) : List (List Char) :=
  let args :=
    match args with
    | first :: _ => if isMarker first then (args.dropWhile (· ≠ marker thread)).tail else args
    | [] => []
  args.takeWhile fun arg => !isMarker arg

/-- `preprocessing_server`, up to `run_coroutines`. -/
def preprocessingServer (thread : Nat) (args : List (List Char)) : ServerScan :=
  serverLoop (threadArgs thread args)

/-! ## P0 and P1 -/

/-- Whether the RDPFs are incremental, and their width. -/
def splitSubtype (subtype : UInt8) : Bool × UInt8 :=
  if 0x80 ≤ subtype then (true, subtype - 0x80) else (false, subtype)

/-- The job that a header stands for, if it stands for one; nothing where the assertion fails. -/
def compJob (type subtype : UInt8) (num : BitVec 32) : Option (Option Job) :=
  if type = 0x80 then some (some ⟨.mult, num⟩)
  else if type = 0x81 then some (some ⟨.half, num⟩)
  else if type = 0x82 then some (some ⟨.and, num⟩)
  else if type = 0x83 then some (some ⟨.select, num⟩)
  else if 0x01 ≤ type ∧ type ≤ 0x30 then
    let (incremental, subtype) := splitSubtype subtype
    if 0x01 ≤ subtype ∧ subtype ≤ 0x05 then some (some ⟨.rdpf type.toNat incremental subtype.toNat, num⟩)
    else none
  else if type = 0x40 then some (some ⟨.cdpf, num⟩)
  else if type = 0x8e then some (some ⟨.counter, num⟩)
  else some none

/-- `preprocessing_comp`, up to `run_coroutines`: the jobs, and what is left in the channel.  Nothing where the
assertion fails or the rest of a header does not arrive. -/
def preprocessingComp : List UInt8 → Option (List Job × List UInt8)
  | [] => some ([], [])
  | type :: rest =>
    if type = 0 then some ([], rest)
    else
      match rest with
      | subtype :: b0 :: b1 :: b2 :: b3 :: rest => do
        let job ← compJob type subtype (BitVec.ofNat 32 (ofLeBytes [b0, b1, b2, b3]))
        let (jobs, rest) ← preprocessingComp rest
        some (job.toList ++ jobs, rest)
      | _ => none

/-! ## The parties agree -/

/-- What the server makes of an argument. -/
def JobKind.Scanned : JobKind → Prop
  | rdpf depth _ width => 1 ≤ depth ∧ depth ≤ 48 ∧ width < 256
  | _ => True

/-- What P0 and P1 can make coroutines for. -/
def JobKind.Known : JobKind → Prop
  | rdpf _ _ width => 1 ≤ width ∧ width ≤ 5
  | _ => True

theorem splitWidth_lt (type : List Char) : (splitWidth type).2 < 256 := by
  unfold splitWidth
  split
  · exact BitVec.isLt _
  · exact (by decide : 1 < 256)

theorem serverRdpf_scanned {type : List Char} {incremental : Bool} {num : BitVec 32} {job : Job}
    (h : serverRdpf type incremental num = .ok (some job)) : job.kind.Scanned := by
  unfold serverRdpf at h
  dsimp only at h
  split at h
  next => cases h
  next hdepth =>
    cases h
    exact ⟨by omega, by omega, splitWidth_lt type⟩

theorem serverArg_scanned {arg : List Char} {job : Job} (h : serverArg arg = .ok (some job)) :
    job.kind.Scanned := by
  unfold serverArg at h
  split at h
  next => cases h
  next type number _ =>
    dsimp only at h
    iterate 4
      split at h
      next =>
        cases h
        trivial
    split at h
    next => exact serverRdpf_scanned h
    iterate 2
      split at h
      next =>
        cases h
        trivial
    cases h

theorem serverLoop_scanned (args : List (List Char)) : ∀ job ∈ (serverLoop args).jobs, job.kind.Scanned := by
  induction args with
  | nil => exact fun job hjob => absurd hjob List.not_mem_nil
  | cons arg args ih =>
      rw [serverLoop]
      split
      next => exact ih
      next => exact ih
      next job hjob => exact List.forall_mem_cons.mpr ⟨serverArg_scanned hjob, ih⟩

theorem JobKind.Scanned.typetag_ne_zero {kind : JobKind} (h : kind.Scanned) : kind.typetag ≠ 0 := by
  cases kind with
  | rdpf depth incremental width =>
      intro hzero
      have htoNat : depth % 256 = 0 := congrArg UInt8.toNat hzero
      have hdepth : 1 ≤ depth ∧ depth ≤ 48 ∧ width < 256 := h
      omega
  | _ => decide

/-- A header of RDPFs: what P0 and P1 make of it. -/
theorem compJob_rdpf {depth : Nat} (hpos : 1 ≤ depth) (hle : depth ≤ 48) (subtype : UInt8)
    (num : BitVec 32) :
    compJob (UInt8.ofNat depth) subtype num =
      let (incremental, subtype) := splitSubtype subtype
      if 0x01 ≤ subtype ∧ subtype ≤ 0x05 then some (some ⟨.rdpf depth incremental subtype.toNat, num⟩)
      else none := by
  have htoNat : (UInt8.ofNat depth).toNat = depth := Nat.mod_eq_of_lt (by omega)
  have hne (tag : UInt8) (htag : 48 < tag.toNat) : UInt8.ofNat depth ≠ tag := by
    rintro rfl
    omega
  unfold compJob
  rw [if_neg (hne _ (by decide)), if_neg (hne _ (by decide)), if_neg (hne _ (by decide)),
    if_neg (hne _ (by decide)), if_pos ⟨UInt8.le_iff_toNat_le.mpr (htoNat.symm ▸ hpos),
      UInt8.le_iff_toNat_le.mpr (htoNat.symm ▸ hle)⟩, htoNat]

/-- The subtype is read as it was meant, by P0 and P1, if and only if they know the width. -/
theorem rdpf_decode_iff {depth width : Nat} (hwidth : width < 256) (incremental : Bool) :
    let (incremental', subtype) := splitSubtype (JobKind.subtypetag (.rdpf depth incremental width))
    ((0x01 ≤ subtype ∧ subtype ≤ 0x05) ∧ incremental' = incremental ∧ subtype.toNat = width) ↔
      1 ≤ width ∧ width ≤ 5 := by
  have hsubtype : (JobKind.subtypetag (.rdpf depth incremental width)).toNat =
      (if incremental then width + 128 else width) % 256 := rfl
  obtain ⟨subtype, hsub⟩ : ∃ subtype, subtype = JobKind.subtypetag (.rdpf depth incremental width) := ⟨_, rfl⟩
  rw [← hsub] at hsubtype ⊢
  have hone : (0x01 : UInt8).toNat = 1 := rfl
  have hfive : (0x05 : UInt8).toNat = 5 := rfl
  by_cases hge : 0x80 ≤ subtype
  · have hvalue : (subtype - 0x80).toNat = subtype.toNat - 128 := UInt8.toNat_sub_of_le _ _ hge
    have hbig : 128 ≤ subtype.toNat := UInt8.le_iff_toNat_le.mp hge
    rw [splitSubtype, if_pos hge]
    simp only [UInt8.le_iff_toNat_le, hone, hfive, hvalue]
    cases incremental
    · simp only [Bool.true_eq_false, false_and, and_false, false_iff]
      rw [if_neg Bool.false_ne_true] at hsubtype
      omega
    · rw [if_pos rfl] at hsubtype
      simp only [true_and]
      omega
  · have hsmall : subtype.toNat < 128 := Nat.lt_of_not_le fun h => hge (UInt8.le_iff_toNat_le.mpr h)
    rw [splitSubtype, if_neg hge]
    simp only [UInt8.le_iff_toNat_le, hone, hfive]
    cases incremental
    · rw [if_neg Bool.false_ne_true] at hsubtype
      simp only [true_and]
      omega
    · simp only [Bool.false_eq_true, false_and, and_false, false_iff]
      rw [if_pos rfl] at hsubtype
      omega

/-- P0 and P1 make a job of every header, or stop; it is the server's if and only if they know the width. -/
theorem JobKind.Scanned.compJob_iff {kind : JobKind} (h : kind.Scanned) (num : BitVec 32) :
    ∃ job, compJob kind.typetag kind.subtypetag num = job.map some ∧ (job = some ⟨kind, num⟩ ↔ kind.Known) := by
  cases kind with
  | rdpf depth incremental width =>
      obtain ⟨hpos, hle, hwidth⟩ := h
      have hiff := @rdpf_decode_iff depth width hwidth incremental
      dsimp only at hiff
      rw [JobKind.typetag, compJob_rdpf hpos hle]
      generalize splitSubtype (JobKind.subtypetag (.rdpf depth incremental width)) = split at hiff
      dsimp only
      split
      next hknown =>
        refine ⟨some ⟨.rdpf depth split.1 split.2.toNat, num⟩, rfl, ?_⟩
        simp only [Option.some.injEq, Job.mk.injEq, JobKind.rdpf.injEq, true_and, and_true]
        simp only [hknown, true_and] at hiff
        exact hiff
      next hunknown =>
        refine ⟨none, rfl, ?_⟩
        simp only [hunknown, false_and] at hiff
        exact iff_of_false (Option.some_ne_none _).symm hiff.mpr
  | _ => exact ⟨_, rfl, iff_of_true rfl trivial⟩

theorem ofLeBytes_num (num : BitVec 32) : BitVec.ofNat 32 (ofLeBytes (leBytes 4 num.toNat)) = num := by
  have hlt : num.toNat < 256 ^ 4 := num.isLt
  rw [ofLeBytes_leBytes, Nat.mod_eq_of_lt hlt, BitVec.ofNat_toNat, BitVec.setWidth_eq]

/-- P0 and P1 at a header. -/
theorem preprocessingComp_header {job : Job} (h : job.kind.Scanned) (rest : List UInt8) :
    preprocessingComp (job.header ++ rest) =
      (compJob job.kind.typetag job.kind.subtypetag job.num).bind fun job =>
        (preprocessingComp rest).map fun (jobs, rest) => (job.toList ++ jobs, rest) := by
  obtain ⟨b0, b1, b2, b3, hbytes⟩ : ∃ b0 b1 b2 b3, leBytes 4 job.num.toNat = [b0, b1, b2, b3] :=
    ⟨_, _, _, _, rfl⟩
  have hnum := ofLeBytes_num job.num
  rw [hbytes] at hnum
  rw [Job.header, hbytes]
  simp only [List.cons_append, List.nil_append, preprocessingComp, if_neg h.typetag_ne_zero, hnum]
  cases compJob job.kind.typetag job.kind.subtypetag job.num with
  | none => rfl
  | some job => cases preprocessingComp rest <;> rfl

theorem serverLoop_agree (args : List (List Char)) (rest : List UInt8) :
    preprocessingComp ((serverLoop args).queued ++ rest) = some ((serverLoop args).jobs, rest) ↔
      ∀ job ∈ (serverLoop args).jobs, job.kind.Known := by
  induction args with
  | nil =>
      have hend : preprocessingComp (0 :: rest) = some ([], rest) := by
        unfold preprocessingComp
        exact if_pos rfl
      exact iff_of_true hend fun job hjob => absurd hjob List.not_mem_nil
  | cons arg args ih =>
      rw [serverLoop]
      split
      next => exact ih
      next => exact ih
      next job hjob =>
        have hscanned := serverArg_scanned hjob
        obtain ⟨job', hcomp, hiff⟩ := hscanned.compJob_iff job.num
        dsimp only
        rw [List.append_assoc, preprocessingComp_header hscanned, hcomp, List.forall_mem_cons, ← hiff, ← ih]
        cases job' with
        | none => exact iff_of_false (Option.some_ne_none _).symm fun h => Option.some_ne_none _ h.1.symm
        | some job' =>
            simp only [Option.map_some, Option.bind_some, Option.map_eq_some_iff, Prod.exists, Option.toList_some,
              List.cons_append, List.nil_append, Prod.mk.injEq, List.cons.injEq, Option.some.injEq]
            constructor
            · rintro ⟨jobs, left, hrest, ⟨hhead, htail⟩, hleft⟩
              exact ⟨hhead, by rw [hrest, htail, hleft]⟩
            · rintro ⟨hhead, hrest⟩
              exact ⟨_, _, hrest, ⟨hhead, rfl⟩, rfl⟩

/-- **The three parties agree** on the jobs of every thread, and P0 and P1 are left with what follows the
headers, if and only if no argument asks for RDPFs of a width that they do not know. -/
theorem preprocessing_agree (thread : Nat) (args : List (List Char)) (rest : List UInt8) :
    preprocessingComp ((preprocessingServer thread args).queued ++ rest) =
        some ((preprocessingServer thread args).jobs, rest) ↔
      ∀ job ∈ (preprocessingServer thread args).jobs, job.kind.Known :=
  serverLoop_agree (threadArgs thread args) rest

/-- Thread 1 has an argument that is not understood, and one with a width that the others do not know. -/
example : preprocessingServer 1 (words "T0 m:3 T1 x7 i12.2:5 r9.7:1 T2 h:1".toList) =
    ⟨["Args must be type:num\n"], [12, 0x82, 5, 0, 0, 0, 9, 7, 1, 0, 0, 0, 0],
      [⟨.rdpf 12 true 2, 5⟩, ⟨.rdpf 9 false 7, 1⟩]⟩ := by
  decide +kernel

/-! ## Arguments by thread -/

theorem isMarker_marker (thread : Nat) : isMarker (marker thread) = true := rfl

theorem marker_injective : Function.Injective marker := fun _ _ h => decimal_injective (List.cons.inj h).2

/-- The arguments of `n` threads from thread `first` on, behind their markers. -/
def sections (first n : Nat) (args : Nat → List (List Char)) : List (List Char) :=
  (List.range' first n).flatMap fun thread => marker thread :: args thread

variable {args : Nat → List (List Char)}

theorem sections_succ (first n : Nat) (args : Nat → List (List Char)) :
    sections first (n + 1) args = marker first :: (args first ++ sections (first + 1) n args) := by
  rw [sections, List.range'_succ, List.flatMap_cons]
  rfl

theorem takeWhile_section {thread : Nat} (h : ∀ arg ∈ args thread, isMarker arg = false) (first n : Nat) :
    (args thread ++ sections first n args).takeWhile (fun arg => !isMarker arg) = args thread := by
  have hend : (sections first n args).takeWhile (fun arg => !isMarker arg) = [] := by
    cases n with
    | zero => rfl
    | succ n =>
        rw [sections_succ]
        rfl
  have hargs : ∀ arg ∈ args thread, (!isMarker arg) = true := fun arg harg => by
    rw [h arg harg]
    rfl
  rw [List.takeWhile_append_of_pos hargs, hend, List.append_nil]

/-- The marker of a thread is found. -/
theorem dropWhile_sections (h : ∀ thread, ∀ arg ∈ args thread, isMarker arg = false) {first n thread : Nat}
    (hge : first ≤ thread) (hlt : thread < first + n) :
    ∃ k, (sections first n args).dropWhile (· ≠ marker thread) =
      marker thread :: (args thread ++ sections (thread + 1) k args) := by
  induction n generalizing first with
  | zero => exact absurd hge (by omega)
  | succ n ih =>
      rw [sections_succ]
      rcases eq_or_ne first thread with rfl | hne
      · exact ⟨n, List.dropWhile_cons_of_neg (by simp only [ne_eq, not_true_eq_false, decide_false,
          Bool.false_eq_true, not_false_eq_true])⟩
      · obtain ⟨k, hk⟩ := @ih (first + 1) (by omega) (by omega)
        have hpass (arg : List Char) (harg : arg ∈ marker first :: args first) : arg ≠ marker thread := by
          rintro rfl
          rcases List.mem_cons.mp harg with heq | hmem
          · exact hne (marker_injective heq).symm
          · exact absurd (isMarker_marker thread) (by rw [h first _ hmem]; exact Bool.false_ne_true)
        refine ⟨k, ?_⟩
        rw [← List.cons_append, List.dropWhile_append_of_pos fun arg harg => decide_eq_true (hpass arg harg), hk]

/-- Every thread is given its own arguments. -/
theorem threadArgs_sections (h : ∀ thread, ∀ arg ∈ args thread, isMarker arg = false) {n thread : Nat}
    (hlt : thread < n) : threadArgs thread (sections 0 n args) = args thread := by
  obtain ⟨k, hk⟩ := dropWhile_sections h (Nat.zero_le thread) (Nat.zero_add n ▸ hlt)
  have hhead : ∃ rest, sections 0 n args = marker 0 :: rest := by
    obtain ⟨m, rfl⟩ := Nat.exists_eq_succ_of_ne_zero (Nat.ne_zero_of_lt hlt)
    exact ⟨_, sections_succ 0 m args⟩
  obtain ⟨rest, hrest⟩ := hhead
  unfold threadArgs
  rw [hrest] at hk ⊢
  dsimp only
  rw [if_pos (isMarker_marker 0), hk]
  exact takeWhile_section (h thread) _ _

end Prac
