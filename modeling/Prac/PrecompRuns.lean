import Prac.Precomputed

/-!
# Preprocessing and then the online phase (`preproc.cpp`, `mpcio.tcc`)

* `Preprocessing`, `Preprocessing.Ran` — a run of the three programs in preprocessing mode.
* `PreCompStorage` — a file as the online phase reads it, one value after the other.
* `FilesReachable` — the files that any number of preprocessing runs leave, and how many values of each kind
  there should be: `stockAfter`.
* `Stored` — the invariant: the files of a kind hold the parts of the same values at all parties.
* `precomputed_matched` — so every party can read that many values, and what the parties read belongs together.
-/

namespace Prac

open Bytes

/-! ## Preprocessing -/

/-- A run of the three programs in preprocessing mode, with the same options: their arguments, what is drawn for
each value, and how often the coroutines of a kind yield. -/
structure Preprocessing where
  appendToFiles : Bool
  expandRdpfs : Bool
  numThreads : Nat
  args : List (List Char)
  nthreads : Player → ℕ+
  serverThreads : ℕ+
  yields : Role → JobKind → Nat
  coins : Nat → JobKind → Nat → PrecompCoins

namespace Preprocessing

variable (prg : (WIDTH : Nat) → PRG WIDTH) (P : Preprocessing)

def tio (WIDTH : Nat) : MPCTIO WIDTH := ⟨prg WIDTH, P.nthreads, P.serverThreads⟩

/-- The jobs of a thread of a party, unless an assertion fails. -/
def jobs (thread : Nat) : Role → Option (List Job)
  | .server => some (preprocessingServer thread P.args).jobs
  | .comp _ => (preprocessingComp (preprocessingServer thread P.args).queued).map Prod.fst

/-- What a party writes for a value, unless an assertion fails. -/
def object (role : Role) (thread : Nat) (kind : JobKind) (i : Nat) : Option (List UInt8) := do
  let d ← kind.generate (P.tio prg) P.expandRdpfs (P.coins thread kind i)
  let v ← d.part role
  v.write

/-- What a thread of a party does to the file system. -/
def events (role : Role) (thread : Nat) : List FileEvent :=
  threadEvents role thread ((P.jobs thread role).getD []) (P.yields role)
    fun kind i => (P.object prg role thread kind i).getD []

/-- From these files to those, with the threads of all parties at once. -/
def Ran (files files' : Files) : Prop :=
  ∃ run, Interleaves P.numThreads (P.events prg) run ∧ files' = filesAfter P.appendToFiles files run

/-- The arguments ask for kinds that P0 and P1 know, each once for a thread, and for RDPFs of a depth up to 30. -/
structure Legal : Prop where
  kind : ∀ thread < P.numThreads, ∀ job ∈ (preprocessingServer thread P.args).jobs,
    job.kind.Known ∧ job.kind.Shallow
  distinct : ∀ thread < P.numThreads, ((preprocessingServer thread P.args).jobs.map Job.kind).Nodup

/-- The job of a thread for a kind. -/
def job? (thread : Nat) (kind : JobKind) : Option Job :=
  if thread < P.numThreads then (preprocessingServer thread P.args).jobs.find? (·.kind = kind) else none

/-- How many values of each kind the threads should have after the run. -/
def stockAfter (stock : Nat → JobKind → Nat) (thread : Nat) (kind : JobKind) : Nat :=
  match P.job? thread kind with
  | some job => (if P.appendToFiles then stock thread kind else 0) + job.num.toNat
  | none => stock thread kind

end Preprocessing

/-- The files after any number of preprocessing runs, with the number of values of each kind for each thread. -/
inductive FilesReachable (prg : (WIDTH : Nat) → PRG WIDTH) : (Nat → JobKind → Nat) → Files → Prop where
  | empty : FilesReachable prg (fun _ _ => 0) (fun _ => none)
  | run {stock : Nat → JobKind → Nat} {files files' : Files} (P : Preprocessing) (legal : P.Legal)
      (before : FilesReachable prg stock files) (ran : P.Ran prg files files') :
      FilesReachable prg (P.stockAfter stock) files'

/-! ## The online phase -/

/-- `PreCompStorage`: what is left of the file, and how many values were read. -/
structure PreCompStorage where
  storage : List UInt8
  count : Nat

namespace PreCompStorage

variable {α : Type}

/-- `PreCompStorage::init`.  It does not report a file that does not exist. -/
def init (files : Files) (name : List Char) : PreCompStorage := ⟨(files name).getD [], 0⟩

/-- `PreCompStorage::get`; nothing where it exits. -/
def get (read : Reader α) (s : PreCompStorage) : Option (α × PreCompStorage) := do
  let (nextval, storage) ← read s.storage
  some (nextval, ⟨storage, s.count + 1⟩)

/-- The next `n` values. -/
def gets (read : Reader α) : Nat → PreCompStorage → Option (List α × PreCompStorage)
  | 0, s => some ([], s)
  | n + 1, s => do
    let (nextval, s) ← s.get read
    let (vals, s) ← gets read n s
    some (nextval :: vals, s)

end PreCompStorage

/-! ## The parties' files belong together -/

/-- The bytes of a party's file are its parts of these values, one after the other. -/
inductive HoldsParts (kind : JobKind) (role : Role) : List UInt8 → List Dealt → Prop where
  | nil : HoldsParts kind role [] []
  | cons {block bytes : List UInt8} {d : Dealt} {ds : List Dealt} {v : Precomputed} (part : d.part role = some v)
      (reads : Reads (kind.get role) block v) (rest : HoldsParts kind role bytes ds) :
      HoldsParts kind role (block ++ bytes) (d :: ds)

namespace HoldsParts

variable {kind : JobKind} {role : Role} {bytes bytes' : List UInt8} {ds ds' : List Dealt}

theorem append (h : HoldsParts kind role bytes ds) (h' : HoldsParts kind role bytes' ds') :
    HoldsParts kind role (bytes ++ bytes') (ds ++ ds') := by
  induction h with
  | nil => exact h'
  | cons part reads _ ih =>
      rw [List.append_assoc]
      exact .cons part reads ih

/-- Objects that are written one after the other. -/
theorem flatMap {object : Nat → List UInt8} {d : Nat → Dealt} {v : Nat → Precomputed}
    (part : ∀ i, (d i).part role = some (v i)) (reads : ∀ i, Reads (kind.get role) (object i) (v i)) (is : List Nat) :
    HoldsParts kind role (is.flatMap object) (is.map d) := by
  induction is with
  | nil => exact .nil
  | cons i is ih =>
      rw [List.flatMap_cons, List.map_cons]
      exact .cons (part i) (reads i) ih

theorem get_nil (kind : JobKind) (role : Role) : kind.get role [] = none := by
  cases kind <;> cases role <;> rfl

/-- The next value is the part of the first one. -/
theorem uncons {d : Dealt} (h : HoldsParts kind role bytes (d :: ds)) :
    ∃ v rest, d.part role = some v ∧ kind.get role bytes = some (v, rest) ∧ HoldsParts kind role rest ds := by
  cases h with
  | cons part reads rest => exact ⟨_, _, part, reads _, rest⟩

theorem eq_nil (h : HoldsParts kind role bytes []) : bytes = [] := by
  cases h with
  | nil => rfl

/-- As many values can be read as there are. -/
theorem gets (h : HoldsParts kind role bytes ds) (n count : Nat) :
    (PreCompStorage.gets (kind.get role) n ⟨bytes, count⟩).map Prod.fst =
      if n ≤ ds.length then some ((ds.take n).filterMap (·.part role)) else none := by
  induction h generalizing n count with
  | nil =>
      cases n with
      | zero => rfl
      | succ n =>
          rw [PreCompStorage.gets, PreCompStorage.get, get_nil]
          rfl
  | @cons block bytes d ds v part reads _ ih =>
      cases n with
      | zero => rfl
      | succ n =>
          have hrest := ih n (count + 1)
          rw [PreCompStorage.gets, PreCompStorage.get, reads]
          simp only [Option.bind_eq_bind, Option.bind_some, List.length_cons, Nat.add_le_add_iff_right,
            List.take_succ_cons, List.filterMap_cons, part]
          by_cases hn : n ≤ ds.length
          · rw [if_pos hn] at hrest ⊢
            obtain ⟨⟨vals, s⟩, hrun, hvals⟩ := Option.map_eq_some_iff.mp hrest
            rw [hrun, ← hvals]
            rfl
          · rw [if_neg hn, Option.map_eq_none_iff] at hrest
            rw [if_neg hn, hrest]
            rfl

end HoldsParts

/-- The files of a kind hold the parts of these values. -/
structure Stored (prg : (WIDTH : Nat) → PRG WIDTH) (files : Files) (thread : Nat) (kind : JobKind) (ds : List Dealt) :
    Prop where
  valid : ∀ d ∈ ds, d.Valid prg kind
  file : ∀ role name, kind.file role thread = some name → HoldsParts kind role ((files name).getD []) ds

variable {prg : (WIDTH : Nat) → PRG WIDTH}

theorem Stored.empty (thread : Nat) (kind : JobKind) : Stored prg (fun _ => none) thread kind [] :=
  ⟨fun _ h => absurd h List.not_mem_nil, fun _ _ _ => .nil⟩

/-- Files that were not touched still hold their values. -/
theorem Stored.congr {files files' : Files} {thread : Nat} {kind : JobKind} {ds : List Dealt}
    (h : Stored prg files thread kind ds) (heq : ∀ role name, kind.file role thread = some name →
      files' name = files name) : Stored prg files' thread kind ds := by
  refine ⟨h.valid, fun role name hname => ?_⟩
  rw [heq role name hname]
  exact h.file role name hname

namespace Preprocessing

variable {P : Preprocessing}

/-- In a legal run the parties have the server's jobs. -/
theorem Legal.jobs_eq (h : P.Legal) {thread : Nat} (hthread : thread < P.numThreads) (role : Role) :
    P.jobs thread role = some (preprocessingServer thread P.args).jobs := by
  cases role with
  | server => rfl
  | comp p =>
      have hagree := (serverLoop_agree (threadArgs thread P.args) []).mpr fun job hjob =>
        (h.kind thread hthread job hjob).1
      rw [List.append_nil] at hagree
      exact congrArg (Option.map Prod.fst) hagree

theorem Legal.supported (h : P.Legal) {thread : Nat} (hthread : thread < P.numThreads) {job : Job}
    (hjob : job ∈ (preprocessingServer thread P.args).jobs) : job.kind.Supported :=
  ⟨serverLoop_scanned _ job hjob, (h.kind thread hthread job hjob).1⟩

theorem Legal.interleaves (h : P.Legal) {run : List ((Role × Nat) × FileEvent)}
    (hrun : Interleaves P.numThreads (P.events prg) run) :
    Interleaves P.numThreads (fun role thread => threadEvents role thread (preprocessingServer thread P.args).jobs
      (P.yields role) fun kind i => (P.object prg role thread kind i).getD []) run := by
  refine ⟨hrun.thread_lt, fun role thread hthread => ?_⟩
  rw [hrun.own role thread hthread, events, h.jobs_eq hthread role, Option.getD_some]

/-- The values of a job, and what each party writes for them. -/
theorem Legal.exists_objects (h : P.Legal) {thread : Nat} (hthread : thread < P.numThreads) {job : Job}
    (hjob : job ∈ (preprocessingServer thread P.args).jobs) (hne : job.kind ≠ .counter) :
    ∃ d : Nat → Dealt, (∀ i, (d i).Valid prg job.kind) ∧ ∀ role i v, (d i).part role = some v →
      Reads (job.kind.get role) ((P.object prg role thread job.kind i).getD []) v := by
  have hsupp := h.supported hthread hjob
  have hgen i := JobKind.exists_generate hsupp.1 (h.kind thread hthread job hjob).2 hne (P.tio prg) P.expandRdpfs
    (P.coins thread job.kind i)
  choose d hd hvalid using hgen
  refine ⟨d, hvalid, fun role i v hv => ?_⟩
  obtain ⟨bytes, hwrite, hread⟩ := (hvalid i).read_write hv
  have hobject : P.object prg role thread job.kind i = some bytes := by
    simp only [object, hd, hv, hwrite, Option.bind_eq_bind, Option.bind_some]
  rwa [hobject]

theorem job?_eq_none {thread : Nat} {kind : JobKind} (h : P.job? thread kind = none) (hthread : thread < P.numThreads) :
    ∀ job ∈ (preprocessingServer thread P.args).jobs, job.kind ≠ kind := by
  rw [job?, if_pos hthread, List.find?_eq_none] at h
  intro job hjob heq
  exact h job hjob (decide_eq_true heq)

theorem job?_eq_some {thread : Nat} {kind : JobKind} {job : Job} (h : P.job? thread kind = some job) :
    thread < P.numThreads ∧ job ∈ (preprocessingServer thread P.args).jobs ∧ job.kind = kind := by
  rw [job?] at h
  split at h
  next hthread => exact ⟨hthread, List.mem_of_find?_eq_some h, by simpa only [decide_eq_true_eq] using List.find?_some h⟩
  next => cases h

end Preprocessing

theorem Dealt.Valid.exists_part {kind : JobKind} {d : Dealt} (h : d.Valid prg kind) {role : Role} {thread : Nat}
    {name : List Char} (hname : kind.file role thread = some name) : ∃ v, d.part role = some v := by
  rw [← Option.isSome_iff_exists, h.part_isSome role]
  rw [JobKind.file, Option.map_eq_some_iff] at hname
  obtain ⟨stem, hstem, -⟩ := hname
  rw [hstem]
  rfl

/-- **A preprocessing run** leaves files that belong together, and the number of values that it should. -/
theorem Stored.run {files files' : Files} {P : Preprocessing} (hlegal : P.Legal) (hran : P.Ran prg files files')
    {thread : Nat} {kind : JobKind} (hkind : kind.Supported) (hne : kind ≠ .counter) {ds : List Dealt}
    (h : Stored prg files thread kind ds) (stock : Nat → JobKind → Nat) (hstock : ds.length = stock thread kind) :
    ∃ ds', ds'.length = P.stockAfter stock thread kind ∧ Stored prg files' thread kind ds' := by
  obtain ⟨run, hrun, rfl⟩ := hran
  have hrun := hlegal.interleaves hrun
  have hsupported : ∀ thread < P.numThreads, ∀ job ∈ (preprocessingServer thread P.args).jobs, job.kind.Supported :=
    fun thread hthread job hjob => hlegal.supported hthread hjob
  cases hjob? : P.job? thread kind with
  | none =>
      refine ⟨ds, ?_, h.congr fun role name hname => ?_⟩
      · rw [Preprocessing.stockAfter, hjob?, hstock]
      · exact files_unchanged hrun hsupported hkind (Preprocessing.job?_eq_none hjob?) hname
  | some job =>
      obtain ⟨hthread, hjob, rfl⟩ := Preprocessing.job?_eq_some hjob?
      obtain ⟨d, hvalid, hread⟩ := @Preprocessing.Legal.exists_objects prg P hlegal thread hthread job hjob hne
      have hold : ∀ e ∈ (if P.appendToFiles then ds else []), e.Valid prg job.kind := by
        intro e he
        split at he
        next => exact h.valid e he
        next => exact absurd he List.not_mem_nil
      refine ⟨(if P.appendToFiles then ds else []) ++ (List.range job.num.toNat).map d, ?_, ?_, ?_⟩
      · rw [Preprocessing.stockAfter, hjob?, ← hstock, List.length_append, List.length_map, List.length_range]
        split <;> rfl
      · intro e he
        rcases List.mem_append.mp he with he | he
        · exact hold e he
        · obtain ⟨i, -, rfl⟩ := List.mem_map.mp he
          exact hvalid i
      · intro role name hname
        have hpart i := (hvalid i).exists_part hname
        choose v hv using hpart
        have hnew := HoldsParts.flatMap hv (fun i => hread role i (v i) (hv i)) (List.range job.num.toNat)
        have hafter := @files_after P.appendToFiles files _ _ _ _ _ hrun hsupported hlegal.distinct _ _ hthread _ hjob
          _ hname
        rw [hafter, Option.getD_some]
        cases P.appendToFiles with
        | false => exact hnew
        | true => exact (h.file role name hname).append hnew

theorem FilesReachable.exists_stored {stock : Nat → JobKind → Nat} {files : Files}
    (h : FilesReachable prg stock files) (thread : Nat) {kind : JobKind} (hkind : kind.Supported)
    (hne : kind ≠ .counter) : ∃ ds, ds.length = stock thread kind ∧ Stored prg files thread kind ds := by
  induction h with
  | empty => exact ⟨[], rfl, Stored.empty thread kind⟩
  | @run stock files files' P legal before ran ih =>
      obtain ⟨ds, hlength, hstored⟩ := ih
      exact hstored.run legal ran hkind hne stock hlength

/-- **What the parties read online belongs together**: after any preprocessing runs every party that has files of a
kind can read as many values from them as the runs made, and the `i`-th values that the parties read are the
parts of one. -/
theorem precomputed_matched {stock : Nat → JobKind → Nat} {files : Files} (h : FilesReachable prg stock files)
    (thread : Nat) {kind : JobKind} (hkind : kind.Supported) (hne : kind ≠ .counter) :
    ∃ ds : List Dealt, ds.length = stock thread kind ∧ (∀ d ∈ ds, d.Valid prg kind) ∧
      ∀ role name, kind.storage role thread = some name → ∀ n,
        (PreCompStorage.gets (kind.get role) n (PreCompStorage.init files name)).map Prod.fst =
          if n ≤ stock thread kind then some ((ds.take n).filterMap (·.part role)) else none := by
  obtain ⟨ds, hlength, hstored⟩ := h.exists_stored thread hkind hne
  refine ⟨ds, hlength, hstored.valid, fun role name hname n => ?_⟩
  rw [PreCompStorage.init, (hstored.file role name hname).gets, hlength]

/-! ## Runs exist -/

/-- One tag after the other is an order that keeps each tag's own. -/
theorem filter_tag {κ ε : Type} [DecidableEq κ] (events : κ → List ε) {tags : List κ} (h : tags.Nodup) {t : κ}
    (ht : t ∈ tags) :
    ((tags.flatMap fun t => (events t).map fun e => (t, e)).filter (·.1 = t)).map Prod.snd = events t := by
  have hself (t : κ) : (((events t).map fun e => (t, e)).filter (·.1 = t)).map Prod.snd = events t := by
    rw [List.filter_map, List.map_map]
    simp only [Function.comp_def, decide_true, List.filter_true, List.map_id']
  have hother {t t' : κ} (hne : t' ≠ t) : ((events t').map fun e => (t', e)).filter (·.1 = t) = [] := by
    refine List.filter_eq_nil_iff.mpr fun p hp heq => ?_
    obtain ⟨e, -, rfl⟩ := List.mem_map.mp hp
    exact hne (of_decide_eq_true heq)
  induction tags with
  | nil => cases ht
  | cons first tags ih =>
      rw [List.nodup_cons] at h
      rw [List.flatMap_cons, List.filter_append, List.map_append]
      rcases List.mem_cons.mp ht with rfl | hrest
      · have hnone : (tags.flatMap fun t => (events t).map fun e => (t, e)).filter (·.1 = t) = [] := by
          refine List.filter_eq_nil_iff.mpr fun p hp heq => ?_
          obtain ⟨t', ht', hp⟩ := List.mem_flatMap.mp hp
          obtain ⟨e, -, rfl⟩ := List.mem_map.mp hp
          exact h.1 (of_decide_eq_true heq ▸ ht')
        rw [hself, hnone]
        exact List.append_nil _
      · have hne : first ≠ t := fun heq => h.1 (heq ▸ hrest)
        rw [hother hne, ih h.2 hrest]
        rfl

def Role.all : List Role := [.comp .p0, .comp .p1, .server]

theorem Preprocessing.exists_ran (prg : (WIDTH : Nat) → PRG WIDTH) (P : Preprocessing) (files : Files) :
    ∃ files', P.Ran prg files files' := by
  have hnodup : (Role.all ×ˢ List.range P.numThreads).Nodup :=
    List.Nodup.product (by decide) List.nodup_range
  refine ⟨_, (Role.all ×ˢ List.range P.numThreads).flatMap fun t => (P.events prg t.1 t.2).map fun e => (t, e),
    ⟨fun e he => ?_, fun role thread hthread => ?_⟩, rfl⟩
  · obtain ⟨t, ht, he⟩ := List.mem_flatMap.mp he
    obtain ⟨event, -, rfl⟩ := List.mem_map.mp he
    exact List.mem_range.mp (List.pair_mem_product.mp ht).2
  · have hrole : role ∈ Role.all := by obtain (_ | _) | _ := role <;> decide
    exact filter_tag (fun t : Role × Nat => P.events prg t.1 t.2) hnodup
      (List.pair_mem_product.mpr ⟨hrole, List.mem_range.mpr hthread⟩)

/-- Two half triples, made in one thread. -/
def halvesRun : Preprocessing where
  appendToFiles := true
  expandRdpfs := false
  numThreads := 1
  args := [['h', ':', '2']]
  nthreads _ := ⟨1, Nat.one_pos⟩
  serverThreads := ⟨1, Nat.one_pos⟩
  yields _ _ := 2
  coins _ _ i := ⟨fun _ => 3, fun _ => 0, BitVec.ofNat 64 i, fun _ => false,
    fun _ => ⟨fun _ => 0, fun _ _ => 0, default, fun _ => halftriple (fun _ => 0) 0⟩, fun _ => 0, ⟨0⟩, ⟨0⟩, 0⟩

theorem halvesRun_legal : halvesRun.Legal := by
  have hjobs : ∀ thread < 1, (preprocessingServer thread halvesRun.args).jobs = [⟨.half, 2⟩] := by decide +kernel
  refine ⟨fun thread hthread job hjob => ?_, fun thread hthread => ?_⟩
  · rw [hjobs thread hthread, List.mem_singleton] at hjob
    rw [hjob]
    exact ⟨trivial, trivial⟩
  · rw [hjobs thread hthread]
    decide

theorem precomputed_matched_halves :
    ∃ files, FilesReachable zeroPrg (halvesRun.stockAfter (halvesRun.stockAfter fun _ _ => 0)) files ∧
      ∃ ds : List Dealt, ds.length = 4 ∧ (∀ d ∈ ds, d.Valid zeroPrg .half) ∧
        ∀ role name, JobKind.half.storage role 0 = some name → ∀ n,
          (PreCompStorage.gets (JobKind.half.get role) n (PreCompStorage.init files name)).map Prod.fst =
            if n ≤ 4 then some ((ds.take n).filterMap (·.part role)) else none := by
  obtain ⟨files, hfiles⟩ := halvesRun.exists_ran zeroPrg fun _ => none
  obtain ⟨files', hfiles'⟩ := halvesRun.exists_ran zeroPrg files
  have hreachable := FilesReachable.run halvesRun halvesRun_legal
    (FilesReachable.run halvesRun halvesRun_legal .empty hfiles) hfiles'
  have hstock : halvesRun.stockAfter (halvesRun.stockAfter fun _ _ => 0) 0 .half = 4 := by decide +kernel
  have h := precomputed_matched hreachable 0 (⟨trivial, trivial⟩ : JobKind.half.Supported) (by decide)
  rw [hstock] at h
  exact ⟨files', hreachable, h⟩

end Prac
