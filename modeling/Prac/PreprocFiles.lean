import Prac.Preproc

/-!
# The files of precomputed values (`preproc.cpp`, `mpcio.cpp`)

* `JobKind.file` — the file that preprocessing writes for a kind and that the online phase reads; `file_inj` —
  no two parties, threads or kinds share one.
* `runRounds` — the order in which the coroutines of a thread end, and so write; `runRounds_filter` — those
  of one job end in order.
* `FileEvent`, `threadEvents` — what a thread does to the file system; the threads of the parties run at once, so
  the events of all come in any order that keeps each thread's own.
* `files_after` — then every file holds the objects of its job, in the order of their coroutines.
-/

namespace Prac

open CString

/-! ## Names -/

/-- P0, P1 or the server. -/
inductive Role where
  | comp (p : Player)
  | server
  deriving DecidableEq

/-- The number of the player. -/
def Role.player : Role → Nat
  | comp .p0 => 0
  | comp .p1 => 1
  | server => 2

/-- A number as `%02d` prints it. -/
def twoDigits (n : Nat) : List Char := if n < 10 then '0' :: decimal n else decimal n

/-- A file name: `%02d.p%d.t%u` or `.p%d.t%u` behind a stem. -/
def storageName (stem : List Char) (player thread depth : Nat) : List Char :=
  stem ++ (if 0 < depth then twoDigits depth else []) ++
    ('.' :: 'p' :: decimal (player % 10) ++ '.' :: 't' :: decimal thread)

/-- `Openfiles::open`: the name. -/
def Openfiles.name (stem : List Char) (player thread depth : Nat) : List Char :=
  storageName stem player thread depth

/-- `PreCompStorage::init`: the name. -/
def PreCompStorage.name (stem : List Char) (player thread depth : Nat) : List Char :=
  storageName stem player thread depth

/-- `rdpf` or `irdpf`, with the width if it is more than 1. -/
def rdpfStem (incremental : Bool) (width : Nat) : List Char :=
  (if incremental then "irdpf" else "rdpf").toList ++ if 1 < width then decimal width ++ ['_'] else []

/-- The stem and the depth of the file for a kind, where a party has one: the server keeps RDPFs only, and
nobody keeps the counter. -/
def JobKind.stem (role : Role) : JobKind → Option (List Char × Nat)
  | rdpf depth incremental width => some (rdpfStem incremental width, depth)
  | kind =>
    match role, kind with
    | .comp _, mult => some ("mults".toList, 0)
    | .comp _, half => some ("halves".toList, 0)
    | .comp _, and => some ("ands".toList, 0)
    | .comp _, select => some ("selects".toList, 0)
    | .comp _, cdpf => some ("cdpf".toList, 0)
    | _, _ => none

/-- The file that preprocessing opens for a kind. -/
def JobKind.file (role : Role) (thread : Nat) (kind : JobKind) : Option (List Char) :=
  (kind.stem role).map fun (stem, depth) => Openfiles.name stem role.player thread depth

/-- The file that the online phase opens for a kind. -/
def JobKind.storage (role : Role) (thread : Nat) (kind : JobKind) : Option (List Char) :=
  (kind.stem role).map fun (stem, depth) => PreCompStorage.name stem role.player thread depth

/-! ## No two files have one name -/

theorem Role.player_inj {role role' : Role} (h : role.player = role'.player) : role = role' := by
  obtain (_ | _) | _ := role <;> obtain (_ | _) | _ := role' <;> first | rfl | cases h

theorem Role.player_lt (role : Role) : role.player < 10 := by
  obtain (_ | _) | _ := role <;> decide

theorem decimal_player (role : Role) : ∃ c, decimal (role.player % 10) = [c] :=
  ⟨_, Nat.toDigits_of_lt_base (Nat.mod_lt _ (by decide))⟩

theorem twoDigits_length {n : Nat} (h : n ≤ 48) : (twoDigits n).length = 2 := by
  have hall : ∀ n < 49, (twoDigits n).length = 2 := by decide
  exact hall n (Nat.lt_succ_of_le h)

theorem twoDigits_injective : Function.Injective twoDigits := by
  intro m n h
  have hvalue (n : Nat) : Nat.ofDigitChars 10 (twoDigits n) 0 = n := by
    unfold twoDigits
    split
    · rw [Nat.ofDigitChars_cons]
      exact ofDigitChars_decimal n
    · exact ofDigitChars_decimal n
  rw [← hvalue m, h, hvalue]

theorem dot_not_mem_twoDigits (n : Nat) : '.' ∉ twoDigits n := by
  unfold twoDigits
  split
  · simp only [List.mem_cons, not_or]
    exact ⟨by decide, not_mem_decimal rfl n⟩
  · exact not_mem_decimal rfl n

/-- What stands before the first dot of a name. -/
def stemDigits (stem : List Char) (depth : Nat) : List Char :=
  stem ++ if 0 < depth then twoDigits depth else []

theorem storageName_inj {stem stem' : List Char} {depth depth' thread thread' : Nat} {role role' : Role}
    (hdot : '.' ∉ stem) (hdot' : '.' ∉ stem')
    (h : storageName stem role.player thread depth = storageName stem' role'.player thread' depth') :
    stemDigits stem depth = stemDigits stem' depth' ∧ role = role' ∧ thread = thread' := by
  have hbase {stem : List Char} (hdot : '.' ∉ stem) (depth : Nat) : '.' ∉ stemDigits stem depth := by
    unfold stemDigits
    rw [List.mem_append, not_or]
    refine ⟨hdot, ?_⟩
    split
    · exact dot_not_mem_twoDigits depth
    · exact List.not_mem_nil
  have hsplit (stem : List Char) (hdot : '.' ∉ stem) (role : Role) (thread depth : Nat) :
      strchr '.' (storageName stem role.player thread depth) = some (stemDigits stem depth,
        'p' :: decimal (role.player % 10) ++ '.' :: 't' :: decimal thread) :=
    strchr_append (hbase hdot depth) _
  have heq := (hsplit stem hdot role thread depth).symm.trans
    ((congrArg (strchr '.') h).trans (hsplit stem' hdot' role' thread' depth'))
  rw [Option.some.injEq, Prod.mk.injEq] at heq
  obtain ⟨hstem, htail⟩ := heq
  obtain ⟨c, hc⟩ := decimal_player role
  obtain ⟨c', hc'⟩ := decimal_player role'
  rw [hc, hc'] at htail
  simp only [List.cons_append, List.nil_append, List.cons.injEq, true_and] at htail
  refine ⟨hstem, Role.player_inj ?_, decimal_injective htail.2⟩
  have hdigits : decimal (role.player % 10) = decimal (role'.player % 10) := by rw [hc, hc', htail.1]
  rw [← Nat.mod_eq_of_lt role.player_lt, ← Nat.mod_eq_of_lt role'.player_lt]
  exact decimal_injective hdigits

/-- The name of a file up to its first dot. -/
def JobKind.base : JobKind → List Char
  | mult => "mults".toList
  | half => "halves".toList
  | and => "ands".toList
  | select => "selects".toList
  | rdpf depth incremental width => rdpfStem incremental width ++ twoDigits depth
  | cdpf => "cdpf".toList
  | counter => []

theorem dot_not_mem_rdpfStem (incremental : Bool) (width : Nat) : '.' ∉ rdpfStem incremental width := by
  unfold rdpfStem
  rw [List.mem_append, not_or]
  constructor
  · cases incremental <;> decide
  · split
    · rw [List.mem_append, not_or]
      exact ⟨not_mem_decimal rfl width, by decide⟩
    · exact List.not_mem_nil

theorem JobKind.stem_spec {role : Role} {kind : JobKind} {stem : List Char} {depth : Nat}
    (hscanned : kind.Scanned) (h : kind.stem role = some (stem, depth)) :
    '.' ∉ stem ∧ stemDigits stem depth = kind.base := by
  cases kind with
  | rdpf d incremental width =>
      cases h
      exact ⟨dot_not_mem_rdpfStem incremental width, congrArg _ (if_pos hscanned.1)⟩
  | _ =>
      cases role <;> cases h
      all_goals exact ⟨by decide, rfl⟩

theorem rdpfStem_inj {incremental : Bool} {width width' : Nat} (h : 1 ≤ width ∧ width ≤ 5)
    (h' : 1 ≤ width' ∧ width' ≤ 5) (heq : rdpfStem incremental width = rdpfStem incremental width') :
    width = width' := by
  have hall : ∀ incremental, ∀ v < 6, ∀ w < 6, 1 ≤ v → 1 ≤ w →
      rdpfStem incremental v = rdpfStem incremental w → v = w := by decide
  exact hall incremental width (by omega) width' (by omega) h.1 h'.1 heq

/-- The first letter of a name tells the kinds apart, but for the RDPFs' depths and widths. -/
theorem JobKind.base_inj {kind kind' : JobKind} (hscanned : kind.Scanned) (hscanned' : kind'.Scanned)
    (hknown : kind.Known) (hknown' : kind'.Known) (h : kind.base = kind'.base) : kind = kind' := by
  have hhead := congrArg List.head? h
  cases kind with
  | rdpf depth incremental width =>
      cases kind' with
      | rdpf depth' incremental' width' =>
          have hlen : (twoDigits depth).length = (twoDigits depth').length := by
            rw [twoDigits_length hscanned.2.1, twoDigits_length hscanned'.2.1]
          obtain ⟨hstem, hdigits⟩ := List.append_inj' h hlen
          obtain rfl : incremental = incremental' := by
            cases incremental <;> cases incremental' <;> first | rfl | cases hhead
          rw [rdpfStem_inj hknown hknown' hstem, twoDigits_injective hdigits]
      | _ => cases incremental <;> cases hhead
  | _ =>
      cases kind' with
      | rdpf depth' incremental' width' => cases incremental' <;> cases hhead
      | _ => first | rfl | cases hhead

/-- **Each file is of one party, thread and kind.** -/
theorem file_inj {role role' : Role} {thread thread' : Nat} {kind kind' : JobKind} (hscanned : kind.Scanned)
    (hscanned' : kind'.Scanned) (hknown : kind.Known) (hknown' : kind'.Known) {name : List Char}
    (h : kind.file role thread = some name) (h' : kind'.file role' thread' = some name) :
    role = role' ∧ thread = thread' ∧ kind = kind' := by
  obtain ⟨⟨stem, depth⟩, hstem, hname⟩ := Option.map_eq_some_iff.mp h
  obtain ⟨⟨stem', depth'⟩, hstem', hname'⟩ := Option.map_eq_some_iff.mp h'
  obtain ⟨hdot, hbase⟩ := JobKind.stem_spec hscanned hstem
  obtain ⟨hdot', hbase'⟩ := JobKind.stem_spec hscanned' hstem'
  obtain ⟨heq, hrole, hthread⟩ := storageName_inj hdot hdot' (hname.trans hname'.symm)
  rw [hbase, hbase'] at heq
  exact ⟨hrole, hthread, JobKind.base_inj hscanned hscanned' hknown hknown' heq⟩

/-! ## The order of the writes -/

section Rounds

variable {α : Type}

/-- The coroutines after a round: those that are not finished, each with a yield less to make. -/
def nextRound (coroutines : List (Nat × α)) : List (Nat × α) :=
  (coroutines.filter (·.1 ≠ 0)).map fun (yields, a) => (yields - 1, a)

theorem nextRound_cons (c : Nat × α) (cs : List (Nat × α)) :
    nextRound (c :: cs) = if c.1 = 0 then nextRound cs else (c.1 - 1, c.2) :: nextRound cs := by
  unfold nextRound
  by_cases h : c.1 = 0
  · rw [List.filter_cons_of_neg (by simpa using h), if_pos h]
  · rw [List.filter_cons_of_pos (by simpa using h), if_neg h, List.map_cons]

theorem nextRound_sum (cs : List (Nat × α)) :
    ((nextRound cs).map fun c => c.1 + 1).sum + cs.length ≤ (cs.map fun c => c.1 + 1).sum := by
  induction cs with
  | nil => exact le_rfl
  | cons c cs ih =>
      rw [nextRound_cons, List.map_cons, List.sum_cons, List.length_cons]
      split
      · omega
      · rw [List.map_cons, List.sum_cons]
        omega

/-- `run_coroutines`: each coroutine is given with the number of its yields and with what it writes in its last
segment.  A round ends those that have no yield left. -/
def runRounds (coroutines : List (Nat × α)) : List α :=
  if coroutines = [] then []
  else (coroutines.filter (·.1 = 0)).map Prod.snd ++ runRounds (nextRound coroutines)
termination_by (coroutines.map fun c => c.1 + 1).sum
decreasing_by
  next hne =>
    have hsum := nextRound_sum coroutines
    have hlen := List.length_pos_of_ne_nil hne
    omega

theorem mem_nextRound {cs : List (Nat × α)} {c : Nat × α} (h : c ∈ nextRound cs) : (c.1 + 1, c.2) ∈ cs := by
  obtain ⟨⟨yields, a⟩, hmem, rfl⟩ := List.mem_map.mp h
  obtain ⟨hcs, hne⟩ := List.mem_filter.mp hmem
  have hpos : yields - 1 + 1 = yields := Nat.sub_add_cancel (Nat.pos_of_ne_zero (of_decide_eq_true hne))
  dsimp only
  rwa [hpos]

/-- Coroutines with as many yields end in one round. -/
theorem filter_round {q : α → Bool} {yields : Nat} {cs : List (Nat × α)}
    (h : ∀ c ∈ cs, q c.2 = true → c.1 = yields) :
    ((cs.filter (·.1 = 0)).map Prod.snd).filter q = (if yields = 0 then (cs.map Prod.snd).filter q else []) ∧
      ((nextRound cs).map Prod.snd).filter q = if yields = 0 then [] else (cs.map Prod.snd).filter q := by
  induction cs with
  | nil => exact ⟨(ite_self _).symm, (ite_self _).symm⟩
  | cons c cs ih =>
      obtain ⟨hended, hnext⟩ := ih fun d hd => h d (List.mem_cons_of_mem c hd)
      have hc := h c List.mem_cons_self
      rw [nextRound_cons]
      by_cases hq : q c.2 = true
      · obtain rfl := hc hq
        by_cases hzero : c.1 = 0
        · simp only [hzero, if_true, List.filter_cons, decide_true, List.map_cons, hq] at hended hnext ⊢
          exact ⟨congrArg _ hended, hnext⟩
        · simp only [hzero, if_false, List.filter_cons, decide_false, Bool.false_eq_true, List.map_cons, hq,
            if_true] at hended hnext ⊢
          exact ⟨hended, congrArg _ hnext⟩
      · rw [List.map_cons, List.filter_cons_of_neg hq]
        by_cases hzero : c.1 = 0
        · simp only [hzero, if_true, List.filter_cons, decide_true, List.map_cons, hq]
          exact ⟨hended, hnext⟩
        · simp only [hzero, if_false, List.filter_cons, decide_false, Bool.false_eq_true, List.map_cons, hq]
          exact ⟨hended, hnext⟩

/-- Some of the coroutines, all with as many yields, write in order. -/
theorem runRounds_filter {q : α → Bool} {yields : Nat} {coroutines : List (Nat × α)}
    (h : ∀ c ∈ coroutines, q c.2 = true → c.1 = yields) :
    (runRounds coroutines).filter q = (coroutines.map Prod.snd).filter q := by
  induction coroutines using runRounds.induct generalizing yields with
  | case1 =>
      rw [runRounds, if_pos rfl]
      rfl
  | case2 cs hne ih =>
      obtain ⟨hended, hnext⟩ := filter_round h
      have hrest := @ih (yields - 1) fun c hc hq => by
        have heq := h _ (mem_nextRound hc) hq
        omega
      rw [runRounds, if_neg hne, List.filter_append, hended, hrest, hnext]
      split
      · exact List.append_nil _
      · rfl

end Rounds

/-! ## The file system -/

/-- The contents of the files that there are. -/
abbrev Files := List Char → Option (List UInt8)

/-- What a thread does to a file: it opens it, or writes to it. -/
inductive FileEvent where
  | opened (name : List Char)
  | wrote (name : List Char) (data : List UInt8)

namespace FileEvent

def name : FileEvent → List Char
  | opened name => name
  | wrote name _ => name

/-- The content of the file after the event.  Without `append`, opening a file empties it. -/
def content (append : Bool) (old : Option (List UInt8)) : FileEvent → List UInt8
  | opened _ => if append then old.getD [] else []
  | wrote _ data => old.getD [] ++ data

def apply (append : Bool) (files : Files) (event : FileEvent) : Files :=
  Function.update files event.name (some (event.content append (files event.name)))

end FileEvent

/-- The coroutines of a thread, each with its yields.  What it writes is named by its kind and its number. -/
def coroutines (yields : JobKind → Nat) (jobs : List Job) : List (Nat × JobKind × Nat) :=
  jobs.flatMap fun job => (List.range job.num.toNat).map fun i => (yields job.kind, job.kind, i)

/-- What a thread does: it opens a file for every job, and writes the objects as their coroutines end. -/
def threadEvents (role : Role) (thread : Nat) (jobs : List Job) (yields : JobKind → Nat)
    (object : JobKind → Nat → List UInt8) : List FileEvent :=
  jobs.filterMap (fun job => (job.kind.file role thread).map .opened) ++
    (runRounds (coroutines yields jobs)).filterMap fun (kind, i) =>
      (kind.file role thread).map fun name => .wrote name (object kind i)

/-- The events of all threads of all parties, in an order that keeps each thread's own. -/
structure Interleaves (numThreads : Nat) (events : Role → Nat → List FileEvent)
    (run : List ((Role × Nat) × FileEvent)) : Prop where
  thread_lt : ∀ e ∈ run, e.1.2 < numThreads
  own : ∀ role, ∀ thread < numThreads, (run.filter (·.1 = (role, thread))).map Prod.snd = events role thread

/-- The file system afterwards. -/
def filesAfter (append : Bool) (files : Files) (run : List ((Role × Nat) × FileEvent)) : Files :=
  run.foldl (fun files e => e.2.apply append files) files

/-! ## What is in a file -/

/-- Only the events of a file change it. -/
theorem filesAfter_eq (append : Bool) (files : Files) (run : List ((Role × Nat) × FileEvent)) (name : List Char) :
    filesAfter append files run name =
      ((run.map Prod.snd).filter (·.name = name)).foldl (fun old event => some (event.content append old))
        (files name) := by
  induction run generalizing files with
  | nil => rfl
  | cons e run ih =>
      rw [filesAfter, List.foldl_cons, ← filesAfter, ih, List.map_cons]
      by_cases h : e.2.name = name
      · rw [List.filter_cons_of_pos (by simpa using h), List.foldl_cons, FileEvent.apply, h, Function.update_self]
      · rw [List.filter_cons_of_neg (by simpa using h), FileEvent.apply, Function.update_of_ne (Ne.symm h)]

theorem filter_filterMap_eq {α β : Type} {f : α → Option β} {p : β → Bool} {q : α → Bool} {g : α → β} {as : List α}
    (h : ∀ a ∈ as, (f a).filter p = if q a then some (g a) else none) :
    (as.filterMap f).filter p = (as.filter q).map g := by
  induction as with
  | nil => rfl
  | cons a as ih =>
      have hrest := ih fun b hb => h b (List.mem_cons_of_mem a hb)
      have ha := h a List.mem_cons_self
      cases hf : f a with
      | none =>
          rw [hf] at ha
          have hq : ¬q a = true := fun hq => by
            rw [if_pos hq] at ha
            cases ha
          rw [List.filterMap_cons_none hf, List.filter_cons_of_neg hq, hrest]
      | some b =>
          rw [hf, Option.filter_some] at ha
          rw [List.filterMap_cons_some hf]
          by_cases hp : p b = true
          · rw [if_pos hp] at ha
            have hq : q a = true := by
              by_contra hq
              rw [if_neg hq] at ha
              cases ha
            rw [if_pos hq, Option.some.injEq] at ha
            rw [List.filter_cons_of_pos hp, List.filter_cons_of_pos hq, List.map_cons, hrest, ha]
          · rw [if_neg hp] at ha
            have hq : ¬q a = true := fun hq => by
              rw [if_pos hq] at ha
              cases ha
            rw [List.filter_cons_of_neg hp, List.filter_cons_of_neg hq, hrest]

/-- Kinds that an argument can ask for and that P0 and P1 can make. -/
def JobKind.Supported (kind : JobKind) : Prop := kind.Scanned ∧ kind.Known

theorem file_eq_iff {role : Role} {thread : Nat} {kind kind' : JobKind} (h : kind.Supported)
    (h' : kind'.Supported) {name : List Char} (hname : kind.file role thread = some name) :
    kind'.file role thread = some name ↔ kind' = kind := by
  constructor
  · intro hname'
    exact (file_inj h'.1 h.1 h'.2 h.2 hname' hname).2.2
  · rintro rfl
    exact hname

section Thread

variable {role : Role} {thread : Nat} {jobs : List Job} {yields : JobKind → Nat}
  {object : JobKind → Nat → List UInt8} {job : Job} {name : List Char}

theorem mem_runRounds {α : Type} {cs : List (Nat × α)} {a : α} (h : a ∈ runRounds cs) : a ∈ cs.map Prod.snd := by
  induction cs using runRounds.induct with
  | case1 =>
      rw [runRounds, if_pos rfl] at h
      exact h
  | case2 cs hne ih =>
      rw [runRounds, if_neg hne, List.mem_append] at h
      rcases h with hended | hrest
      · obtain ⟨c, hc, rfl⟩ := List.mem_map.mp hended
        exact List.mem_map_of_mem (List.mem_of_mem_filter hc)
      · obtain ⟨c, hc, rfl⟩ := List.mem_map.mp (ih hrest)
        exact List.mem_map.mpr ⟨_, mem_nextRound hc, rfl⟩

theorem map_coroutines (yields : JobKind → Nat) (jobs : List Job) :
    (coroutines yields jobs).map Prod.snd =
      jobs.flatMap fun job => (List.range job.num.toNat).map fun i => (job.kind, i) := by
  rw [coroutines, List.map_flatMap]
  simp only [List.map_map, Function.comp_def]

/-- With one job of each kind, the job is the only one of its kind. -/
theorem filter_kind (hdistinct : (jobs.map Job.kind).Nodup) (hjob : job ∈ jobs) :
    jobs.filter (·.kind = job.kind) = [job] := by
  induction jobs with
  | nil => cases hjob
  | cons first jobs ih =>
      rw [List.map_cons, List.nodup_cons] at hdistinct
      rcases List.mem_cons.mp hjob with rfl | hrest
      · have hnone : jobs.filter (·.kind = job.kind) = [] := List.filter_eq_nil_iff.mpr fun other hother heq =>
          hdistinct.1 (List.mem_map.mpr ⟨other, hother, of_decide_eq_true heq⟩)
        rw [List.filter_cons, hnone, decide_eq_true rfl, if_pos rfl]
      · have hne : first.kind ≠ job.kind := fun heq =>
          hdistinct.1 (heq ▸ List.mem_map_of_mem hrest)
        rw [List.filter_cons_of_neg (by simpa using hne), ih hdistinct.2 hrest]

/-- Whether an event is about the file of a kind. -/
theorem filter_event {kind kind' : JobKind} (h : kind.Supported) (h' : kind'.Supported)
    (hname : kind.file role thread = some name) {event : List Char → FileEvent}
    (hevent : ∀ name, (event name).name = name) :
    ((kind'.file role thread).map event).filter (fun event => event.name = name) =
      if kind' = kind then some (event name) else none := by
  have hiff := file_eq_iff h h' hname
  cases hfile : kind'.file role thread with
  | none =>
      have hne : kind' ≠ kind := fun heq => by
        rw [hiff.mpr heq] at hfile
        cases hfile
      rw [if_neg hne]
      rfl
  | some other =>
      rw [hfile, Option.some.injEq] at hiff
      rw [Option.map_some, Option.filter_some, hevent]
      by_cases heq : other = name
      · rw [if_pos (decide_eq_true heq), if_pos (hiff.mp heq), heq]
      · rw [if_neg (by simpa only [decide_eq_true_eq] using heq), if_neg fun hkind => heq (hiff.mpr hkind)]

/-- The objects of a job are written in order. -/
theorem runRounds_coroutines (hdistinct : (jobs.map Job.kind).Nodup) (hjob : job ∈ jobs) :
    (runRounds (coroutines yields jobs)).filter (fun c => c.1 = job.kind) =
      (List.range job.num.toNat).map fun i => (job.kind, i) := by
  have hyields : ∀ c ∈ coroutines yields jobs, decide (c.2.1 = job.kind) = true → c.1 = yields job.kind := by
    intro c hc hkind
    obtain ⟨other, -, hi⟩ := List.mem_flatMap.mp hc
    obtain ⟨i, -, rfl⟩ := List.mem_map.mp hi
    exact congrArg yields (of_decide_eq_true hkind)
  have hfilter (jobs : List Job) : (jobs.flatMap fun other => (List.range other.num.toNat).map fun i =>
      (other.kind, i)).filter (fun c => c.1 = job.kind) = (jobs.filter (·.kind = job.kind)).flatMap fun other =>
        (List.range other.num.toNat).map fun i => (job.kind, i) := by
    induction jobs with
    | nil => rfl
    | cons other jobs ih =>
        rw [List.flatMap_cons, List.filter_append, ih, List.filter_cons]
        by_cases heq : other.kind = job.kind
        · rw [if_pos (decide_eq_true heq), List.flatMap_cons, heq, List.filter_eq_self.mpr]
          intro c hc
          obtain ⟨i, -, rfl⟩ := List.mem_map.mp hc
          exact decide_eq_true rfl
        · rw [if_neg (by simpa only [decide_eq_true_eq] using heq), List.filter_eq_nil_iff.mpr, List.nil_append]
          intro c hc hkind
          obtain ⟨i, -, rfl⟩ := List.mem_map.mp hc
          exact heq (of_decide_eq_true hkind)
  rw [runRounds_filter hyields, map_coroutines, hfilter, filter_kind hdistinct hjob]
  exact List.append_nil _

/-- What a thread does to the file of a job. -/
theorem threadEvents_filter (hsupported : ∀ job ∈ jobs, job.kind.Supported)
    (hdistinct : (jobs.map Job.kind).Nodup) (hjob : job ∈ jobs) (hname : job.kind.file role thread = some name) :
    (threadEvents role thread jobs yields object).filter (·.name = name) =
      .opened name :: (List.range job.num.toNat).map fun i => .wrote name (object job.kind i) := by
  have hopened : (jobs.filterMap fun job => (job.kind.file role thread).map FileEvent.opened).filter
      (fun event => event.name = name) = (jobs.filter (·.kind = job.kind)).map fun _ => .opened name := by
    refine filter_filterMap_eq fun other hother => ?_
    rw [filter_event (hsupported job hjob) (hsupported other hother) hname fun _ => rfl]
    simp only [decide_eq_true_eq]
  have hmem {c : JobKind × Nat} (hc : c ∈ runRounds (coroutines yields jobs)) : c.1.Supported := by
    have hc := mem_runRounds hc
    rw [map_coroutines] at hc
    obtain ⟨other, hother, hi⟩ := List.mem_flatMap.mp hc
    obtain ⟨i, -, rfl⟩ := List.mem_map.mp hi
    exact hsupported other hother
  have hwrote : ((runRounds (coroutines yields jobs)).filterMap fun (kind, i) =>
      (kind.file role thread).map fun name => FileEvent.wrote name (object kind i)).filter
        (fun event => event.name = name) =
      ((runRounds (coroutines yields jobs)).filter (fun c => c.1 = job.kind)).map fun c =>
        .wrote name (object job.kind c.2) := by
    refine filter_filterMap_eq fun c hc => ?_
    obtain ⟨kind, i⟩ := c
    dsimp only
    rw [filter_event (hsupported job hjob) (hmem hc) hname fun _ => rfl]
    by_cases heq : kind = job.kind
    · rw [if_pos heq, if_pos (decide_eq_true heq), heq]
    · rw [if_neg heq, if_neg (by simpa only [decide_eq_true_eq] using heq)]
  rw [threadEvents, List.filter_append, hopened, hwrote, runRounds_coroutines hdistinct hjob,
    filter_kind hdistinct hjob, List.map_map]
  rfl

/-- A thread touches the files of its own jobs only. -/
theorem mem_threadEvents {event : FileEvent} (h : event ∈ threadEvents role thread jobs yields object) :
    ∃ job ∈ jobs, job.kind.file role thread = some event.name := by
  rcases List.mem_append.mp h with hopened | hwrote
  · obtain ⟨job, hjob, hevent⟩ := List.mem_filterMap.mp hopened
    obtain ⟨name, hname, rfl⟩ := Option.map_eq_some_iff.mp hevent
    exact ⟨job, hjob, hname⟩
  · obtain ⟨⟨kind, i⟩, hc, hevent⟩ := List.mem_filterMap.mp hwrote
    obtain ⟨name, hname, rfl⟩ := Option.map_eq_some_iff.mp hevent
    have hc := mem_runRounds hc
    rw [map_coroutines] at hc
    obtain ⟨job, hjob, hi⟩ := List.mem_flatMap.mp hc
    obtain ⟨j, -, heq⟩ := List.mem_map.mp hi
    obtain ⟨rfl, -⟩ := Prod.mk.inj heq
    exact ⟨job, hjob, hname⟩

end Thread

theorem foldl_wrote {name : List Char} (append : Bool) (data : Nat → List UInt8) (is : List Nat)
    (old : List UInt8) :
    (is.map fun i => FileEvent.wrote name (data i)).foldl (fun old event => some (event.content append old))
      (some old) = some (old ++ is.flatMap data) := by
  induction is generalizing old with
  | nil =>
      rw [List.flatMap_nil, List.append_nil]
      rfl
  | cons i is ih =>
      rw [List.map_cons, List.foldl_cons, FileEvent.content, Option.getD_some, ih, List.flatMap_cons,
        List.append_assoc]

section Run

variable {append : Bool} {files : Files} {numThreads : Nat} {jobs : Nat → List Job} {yields : Role → JobKind → Nat}
  {object : Role → Nat → JobKind → Nat → List UInt8} {run : List ((Role × Nat) × FileEvent)}

/-- Every event is about the file of a job of its thread. -/
theorem Interleaves.exists_job
    (h : Interleaves numThreads
      (fun role thread => threadEvents role thread (jobs thread) (yields role) (object role thread)) run)
    {e : (Role × Nat) × FileEvent} (he : e ∈ run) :
    e.1.2 < numThreads ∧ ∃ job ∈ jobs e.1.2, job.kind.file e.1.1 e.1.2 = some e.2.name := by
  have hthread := h.thread_lt e he
  refine ⟨hthread, @mem_threadEvents e.1.1 e.1.2 (jobs e.1.2) (yields e.1.1) (object e.1.1 e.1.2) e.2 ?_⟩
  rw [← h.own e.1.1 e.1.2 hthread]
  exact List.mem_map.mpr ⟨e, List.mem_filter.mpr ⟨he, decide_eq_true rfl⟩, rfl⟩

/-- **The file of a job** holds what was there, if that is kept, and then the objects in the order of their
coroutines: whatever else the thread does, and the other threads and parties do in the meantime. -/
theorem files_after
    (hrun : Interleaves numThreads
      (fun role thread => threadEvents role thread (jobs thread) (yields role) (object role thread)) run)
    (hsupported : ∀ thread < numThreads, ∀ job ∈ jobs thread, job.kind.Supported)
    (hdistinct : ∀ thread < numThreads, ((jobs thread).map Job.kind).Nodup) {role : Role} {thread : Nat}
    (hthread : thread < numThreads) {job : Job} (hjob : job ∈ jobs thread) {name : List Char}
    (hname : job.kind.file role thread = some name) :
    filesAfter append files run name =
      some ((if append then (files name).getD [] else []) ++
        (List.range job.num.toNat).flatMap (object role thread job.kind)) := by
  have htag : ∀ e ∈ run, e.2.name = name → e.1 = (role, thread) := by
    rintro ⟨⟨role', thread'⟩, event⟩ he rfl
    obtain ⟨hthread', job', hjob', hname'⟩ := hrun.exists_job he
    have hsupp := hsupported thread hthread job hjob
    have hsupp' := hsupported thread' hthread' job' hjob'
    obtain ⟨rfl, rfl, -⟩ := file_inj hsupp'.1 hsupp.1 hsupp'.2 hsupp.2 hname' hname
    rfl
  have hown : (run.map Prod.snd).filter (fun event => event.name = name) =
      ((run.filter (·.1 = (role, thread))).map Prod.snd).filter (fun event => event.name = name) := by
    rw [List.filter_map, List.filter_map, List.filter_filter]
    congr 1
    refine List.filter_congr fun e he => ?_
    rw [Bool.eq_iff_iff]
    simp only [Function.comp_apply, Bool.and_eq_true, decide_eq_true_eq]
    exact ⟨fun h => ⟨h, htag e he h⟩, And.left⟩
  rw [filesAfter_eq, hown, hrun.own role thread hthread,
    threadEvents_filter (hsupported thread hthread) (hdistinct thread hthread) hjob hname, List.foldl_cons,
    foldl_wrote]
  rfl

/-- A file of which no thread has a job is as it was. -/
theorem files_unchanged
    (hrun : Interleaves numThreads
      (fun role thread => threadEvents role thread (jobs thread) (yields role) (object role thread)) run)
    (hsupported : ∀ thread < numThreads, ∀ job ∈ jobs thread, job.kind.Supported) {role : Role} {thread : Nat}
    {kind : JobKind} (hkind : kind.Supported) (hnone : thread < numThreads → ∀ job ∈ jobs thread, job.kind ≠ kind)
    {name : List Char} (hname : kind.file role thread = some name) :
    filesAfter append files run name = files name := by
  have hno : (run.map Prod.snd).filter (fun event => event.name = name) = [] := by
    refine List.filter_eq_nil_iff.mpr fun event hevent heq => ?_
    obtain ⟨⟨⟨role', thread'⟩, event⟩, he, rfl⟩ := List.mem_map.mp hevent
    obtain ⟨hthread', job', hjob', hname'⟩ := hrun.exists_job he
    have hsupp' := hsupported thread' hthread' job' hjob'
    rw [of_decide_eq_true heq] at hname'
    obtain ⟨-, rfl, heq⟩ := file_inj hsupp'.1 hkind.1 hsupp'.2 hkind.2 hname' hname
    exact hnone hthread' job' hjob' heq
  rw [filesAfter_eq, hno, List.foldl_nil]

end Run

end Prac
