import Mathlib.Data.List.Perm.Basic
import Mathlib.Data.List.Nodup
import Mathlib.Data.List.Pairwise
import Mathlib.Data.Int.Notation
import OsmParquet.Traces

/-!
Requests to the query server, side by side.

A request takes a slot, runs its program on a cursor of its own, and gives the slot back, whatever
the run comes to. The slots are counted twice: all of them in a table by number, and those of each
address. Another request may ask to kill the queries of its address. It first takes the list of
them, and then cancels one after the other, while they go on; a cancel that comes before a run has
its cursor is kept for it.

Every step is what is done under one lock, or by one party alone.
-/

namespace OsmParquet.QuerySlots

open OsmParquet.Traces

/-! ### The server -/

structure Limits where
  slotsPerIp : ℤ := 2
  maxConcurrent : ℤ := 8
  maxTimeout : ℤ := 180
  maxMaxsize : ℤ := 1073741824

/-- `[timeout:]` and `[maxsize:]`, which are clamped and never widened. -/
def clamp (value cap : ℤ) : ℤ := if value ≠ 0 then min value cap else cap

structure RunningQuery where
  id : ℕ
  ip : String
  maxsize : ℤ
  timeout : ℤ
  start : ℤ

structure CancelToken where
  con : Option ℕ := none
  cancelled : Bool := false

inductive Cause
  | cancelled | timedOut
  deriving DecidableEq

/-- `interrupt()` on a cursor. -/
structure Interrupt where
  con : ℕ
  cause : Cause
  deriving DecidableEq

/-- Where a request is, with the number of its query and the cursor of its run. -/
inductive Phase
  | parsed
  | refused
  | acquired (id : ℕ)
  | described (id : ℕ)
  | bound (id con : ℕ)
  | closed (id con : ℕ)
  | ended (id : ℕ) (con : Option ℕ)
  | done (id : ℕ) (con : Option ℕ)

structure Request where
  ip : String
  timeout : ℤ
  maxsize : ℤ
  phase : Phase := .parsed

/-- A request to kill queries: those it has listed, and those it still has to cancel. -/
structure Kill where
  ip : String
  listed : List ℕ
  pending : List ℕ

structure Server where
  limits : Limits := {}
  running : List RunningQuery := []
  ipCounts : String → Option ℤ := fun _ => none
  nextId : ℕ := 1
  tokens : ℕ → CancelToken := fun _ => {}
  nextCon : ℕ := 0
  interrupts : List Interrupt := []
  requests : List Request := []
  kills : List Kill := []

/-! ### Slots -/

section Slots

variable (s : Server)

def ipCount (ip : String) : ℤ := (s.ipCounts ip).getD 0

def tryAcquire (ip : String) (now : ℤ) : Option (Server × RunningQuery) :=
  if s.limits.maxConcurrent ≤ s.running.length then none
  else if s.limits.slotsPerIp ≤ ipCount s ip then none
  else
    let rq : RunningQuery := ⟨s.nextId, ip, 0, 0, now⟩
    some ({ s with
      running := s.running ++ [rq]
      ipCounts := Function.update s.ipCounts ip (some (ipCount s ip + 1))
      nextId := s.nextId + 1 }, rq)

def release (id : ℕ) (ip : String) : Server :=
  let remaining := ipCount s ip - 1
  { s with
    running := s.running.filter fun rq => rq.id ≠ id
    ipCounts := Function.update s.ipCounts ip (if remaining ≤ 0 then none else some remaining) }

def runningForIp (ip : String) : List RunningQuery := s.running.filter fun rq => rq.ip = ip

/-- The slots that the status of an address tells. -/
def available (ip : String) : ℤ := max 0 (s.limits.slotsPerIp - (runningForIp s ip).length)

/-! ### Tokens -/

/-- The run binds its cursor, which is interrupted if the query has been cancelled before. -/
def bindToken (id con : ℕ) : Server :=
  { s with
    tokens := Function.update s.tokens id { s.tokens id with con := some con }
    interrupts := if (s.tokens id).cancelled then s.interrupts ++ [⟨con, .cancelled⟩]
      else s.interrupts }

def unbindToken (id : ℕ) : Server :=
  { s with tokens := Function.update s.tokens id { s.tokens id with con := none } }

def cancelToken (id : ℕ) : Server :=
  { s with
    tokens := Function.update s.tokens id { s.tokens id with cancelled := true }
    interrupts := s.interrupts ++ (s.tokens id).con.toList.map fun con => ⟨con, .cancelled⟩ }

end Slots

/-! ### Steps -/

inductive RequestEvent
  | acquire (now : ℤ)
  | describe
  /-- The run gets no cursor. -/
  | fail
  | bind
  | timeOut
  | close
  | unbind
  | release

inductive Event
  | arrive (ip : String) (timeout maxsize : ℤ)
  | request (i : ℕ) (e : RequestEvent)
  | kill (ip : String)
  | cancel (k : ℕ)
  | setLimits (limits : Limits)

/-- What a request does next. -/
def move (s : Server) (r : Request) : RequestEvent → Option (Server × Phase)
  | .acquire now => match r.phase with
    | .parsed => some (match tryAcquire s r.ip now with
      | some (s', rq) => (s', .acquired rq.id)
      | none => (s, .refused))
    | _ => none
  | .describe => match r.phase with
    | .acquired id => some ({ s with running := s.running.map fun rq =>
        if rq.id = id then { rq with maxsize := r.maxsize, timeout := r.timeout } else rq },
          .described id)
    | _ => none
  | .fail => match r.phase with
    | .described id => some (s, .ended id none)
    | _ => none
  | .bind => match r.phase with
    | .described id => some ({ bindToken s id s.nextCon with nextCon := s.nextCon + 1 },
      .bound id s.nextCon)
    | _ => none
  | .timeOut => match r.phase with
    | .bound id con => some ({ s with interrupts := s.interrupts ++ [⟨con, .timedOut⟩] },
      .bound id con)
    | _ => none
  | .close => match r.phase with
    | .bound id con => some (s, .closed id con)
    | _ => none
  | .unbind => match r.phase with
    | .closed id con => some (unbindToken s id, .ended id (some con))
    | _ => none
  | .release => match r.phase with
    | .ended id con => some (release s id r.ip, .done id con)
    | _ => none

def step (s : Server) : Event → Option Server
  | .arrive ip timeout maxsize => some { s with requests := s.requests ++
      [⟨ip, clamp timeout s.limits.maxTimeout, clamp maxsize s.limits.maxMaxsize, .parsed⟩] }
  | .request i e => s.requests[i]?.bind fun r => (move s r e).map fun x =>
      { x.1 with requests := s.requests.set i { r with phase := x.2 } }
  | .kill ip =>
    let mine := (runningForIp s ip).map RunningQuery.id
    some { s with kills := s.kills ++ [⟨ip, mine, mine⟩] }
  | .cancel k => s.kills[k]?.bind fun kill => match kill.pending with
    | [] => none
    | id :: rest =>
      some { cancelToken s id with kills := s.kills.set k { kill with pending := rest } }
  | .setLimits limits => some { s with limits }

/-! ### The invariant -/

/-- What a request has: the number of its query, also when it is done, and the cursor of its run;
and whether it has a slot, and whether its token is bound to the cursor. -/
structure Holding where
  ip : String
  id : Option ℕ := none
  con : Option ℕ := none
  slot : Bool := false
  bound : Bool := false

def Request.holding (r : Request) : Holding :=
  match r.phase with
  | .parsed | .refused => { r with }
  | .acquired id | .described id => { r with id := some id, slot := true }
  | .bound id con | .closed id con =>
    { r with id := some id, con := some con, slot := true, bound := true }
  | .ended id con => { r with id := some id, con, slot := true }
  | .done id con => { r with id := some id, con }

/-- The slot of a request, with its address. -/
def Holding.slot? (h : Holding) : Option (ℕ × String) :=
  if h.slot then h.id.map fun id => (id, h.ip) else none

/-- The cursor that its token is bound to. -/
def Holding.bound? (h : Holding) : Option ℕ := if h.bound then h.con else none

/-- The server, and what its requests have, in any order. -/
structure Inv (s : Server) (hs : List Holding) : Prop where
  slots : (s.running.map fun rq => (rq.id, rq.ip)).Perm (hs.filterMap Holding.slot?)
  counts : ∀ ip, s.ipCounts ip =
    if (runningForIp s ip).length = 0 then none else some ((runningForIp s ip).length : ℤ)
  ids : (hs.filterMap Holding.id).Nodup
  idsBelow : ∀ id ∈ hs.filterMap Holding.id, id < s.nextId
  cons : (hs.filterMap Holding.con).Nodup
  consBelow : ∀ con ∈ hs.filterMap Holding.con, con < s.nextCon
  tokens : ∀ h ∈ hs, ∀ id ∈ h.id, (s.tokens id).con = h.bound?
  fresh : ∀ id, s.nextId ≤ id → s.tokens id = {}
  cancelled : ∀ id, (s.tokens id).cancelled = true → ∃ k ∈ s.kills, id ∈ k.listed
  listed : ∀ k ∈ s.kills, ∀ id ∈ k.listed, ∃ h ∈ hs, h.id = some id ∧ h.ip = k.ip
  pending : ∀ k ∈ s.kills, k.pending ⊆ k.listed ∧
    ∀ id ∈ k.listed, id ∉ k.pending → (s.tokens id).cancelled = true
  interrupted : ∀ h ∈ hs, ∀ con ∈ h.bound?, ∀ id ∈ h.id, (s.tokens id).cancelled = true →
    ⟨con, .cancelled⟩ ∈ s.interrupts
  hits : ∀ con, ⟨con, .cancelled⟩ ∈ s.interrupts → ∃ h ∈ hs, h.con = some con ∧
    ∃ id, h.id = some id ∧ (s.tokens id).cancelled = true

section Invariant

variable {s s' : Server} {h h' : Holding} {hs rest : List Holding} {ip : String} {id : ℕ}

lemma inv_start (limits : Limits) : Inv { limits } [] where
  slots := .refl _
  counts _ := rfl
  ids := List.nodup_nil
  idsBelow _ h := absurd h List.not_mem_nil
  cons := List.nodup_nil
  consBelow _ h := absurd h List.not_mem_nil
  tokens _ h := absurd h List.not_mem_nil
  fresh _ _ := rfl
  cancelled _ h := by cases h
  listed _ h := absurd h List.not_mem_nil
  pending _ h := absurd h List.not_mem_nil
  interrupted _ h := absurd h List.not_mem_nil
  hits _ h := absurd h List.not_mem_nil

lemma Inv.perm (hi : Inv s hs) {hs' : List Holding} (hp : hs.Perm hs') : Inv s hs' where
  slots := hi.slots.trans (hp.filterMap _)
  counts := hi.counts
  ids := (hp.filterMap _).nodup hi.ids
  idsBelow id hid := hi.idsBelow id ((hp.filterMap _).mem_iff.mpr hid)
  cons := (hp.filterMap _).nodup hi.cons
  consBelow con hcon := hi.consBelow con ((hp.filterMap _).mem_iff.mpr hcon)
  tokens h hh := hi.tokens h (hp.mem_iff.mpr hh)
  fresh := hi.fresh
  cancelled := hi.cancelled
  listed k hk id hid := by
    obtain ⟨h, hh, hrest⟩ := hi.listed k hk id hid
    exact ⟨h, hp.mem_iff.mp hh, hrest⟩
  pending := hi.pending
  interrupted h hh := hi.interrupted h (hp.mem_iff.mpr hh)
  hits con hcon := by
    obtain ⟨h, hh, hrest⟩ := hi.hits con hcon
    exact ⟨h, hp.mem_iff.mp hh, hrest⟩

/-- A request that has nothing yet. -/
lemma Inv.arrive (hi : Inv s hs) (ip : String) : Inv s ({ ip } :: hs) where
  slots := hi.slots
  counts := hi.counts
  ids := hi.ids
  idsBelow := hi.idsBelow
  cons := hi.cons
  consBelow := hi.consBelow
  tokens := List.forall_mem_cons.mpr ⟨fun _ hid => (nomatch hid), hi.tokens⟩
  fresh := hi.fresh
  cancelled := hi.cancelled
  listed k hk id hid := by
    obtain ⟨h, hh, hrest⟩ := hi.listed k hk id hid
    exact ⟨h, List.mem_cons_of_mem _ hh, hrest⟩
  pending := hi.pending
  interrupted := List.forall_mem_cons.mpr ⟨fun _ hcon => (nomatch hcon), hi.interrupted⟩
  hits con hcon := by
    obtain ⟨h, hh, hrest⟩ := hi.hits con hcon
    exact ⟨h, List.mem_cons_of_mem _ hh, hrest⟩

/-! ### Slots -/

lemma length_runningForIp (s : Server) (ip : String) : (runningForIp s ip).length =
    ((s.running.map fun rq => (rq.id, rq.ip)).filter fun x => x.2 = ip).length := by
  rw [runningForIp, List.filter_map, List.length_map]
  rfl

lemma Inv.ipCount_eq (hi : Inv s hs) (ip : String) : ipCount s ip = (runningForIp s ip).length := by
  rw [ipCount, hi.counts]
  split_ifs with h
  · rw [h]
    rfl
  · rfl

/-- The number of the query of a request is that of no other one. -/
lemma Inv.id_ne (hi : Inv s (h :: rest)) (hid : h.id = some id) : ∀ x ∈ rest, x.id ≠ some id := by
  intro x hx hsame
  have hids := hi.ids
  rw [List.filterMap_cons, hid] at hids
  exact (List.nodup_cons.mp hids).1 (List.mem_filterMap.mpr ⟨x, hx, hsame⟩)

lemma Inv.acquire (hi : Inv s ({ ip } :: rest)) {now : ℤ} {rq : RunningQuery}
    (hacquire : tryAcquire s ip now = some (s', rq)) :
    Inv s' ({ ip, id := some rq.id, slot := true } :: rest) := by
  rw [tryAcquire] at hacquire
  split_ifs at hacquire
  cases hacquire
  have hslots : (s.running.map fun rq => (rq.id, rq.ip)).Perm
      (rest.filterMap Holding.slot?) := hi.slots
  have hids : (rest.filterMap Holding.id).Nodup := hi.ids
  have hbelow : ∀ id ∈ rest.filterMap Holding.id, id < s.nextId := hi.idsBelow
  have hrest : ∀ {x : Holding} {id : ℕ}, x ∈ ({ ip } : Holding) :: rest →
      x.id = some id → x ∈ rest :=
    fun hx hid =>
    (List.mem_cons.mp hx).resolve_left fun hx => by
      subst hx
      cases hid
  refine {
    slots := ?_, counts := fun ip' => ?_, ids := ?_, idsBelow := ?_, cons :=
      hi.cons, consBelow := hi.consBelow
    tokens := ?_, fresh := fun id hid => hi.fresh id (Nat.le_of_succ_le hid),
      cancelled := hi.cancelled
    listed := fun k hk id hid => ?_, pending := hi.pending, interrupted := ?_, hits :=
      fun con hcon => ?_ }
  · show ((s.running ++ [_]).map _).Perm ((s.nextId, ip) :: rest.filterMap Holding.slot?)
    rw [List.map_append]
    exact (List.perm_append_singleton _ _).trans (hslots.cons _)
  · have hfilter : runningForIp { s with running := s.running ++ [⟨s.nextId, ip, 0, 0, now⟩] } ip' =
        runningForIp s ip' ++ if ip = ip' then [⟨s.nextId, ip, 0, 0, now⟩] else [] := by
      rw [runningForIp, List.filter_append, runningForIp]
      by_cases h : ip = ip' <;> simp [h]
    have hcount := hi.ipCount_eq ip
    show Function.update s.ipCounts ip (some (ipCount s ip + 1)) ip' =
      if (runningForIp { s with running := s.running ++ [⟨s.nextId, ip, 0, 0, now⟩] } ip').length =
        0 then none
      else some ((runningForIp { s with running := s.running ++ [⟨s.nextId, ip, 0, 0, now⟩] }
        ip').length : ℤ)
    rw [hfilter, Function.update_apply]
    by_cases h : ip' = ip
    · subst h
      rw [if_pos rfl, if_pos rfl, hcount]
      simp
    · rw [if_neg h, if_neg (Ne.symm h), List.append_nil]
      exact hi.counts ip'
  · exact List.nodup_cons.mpr ⟨fun hmem => absurd (hbelow _ hmem) (Nat.lt_irrefl _), hids⟩
  · exact List.forall_mem_cons.mpr ⟨Nat.lt_succ_self _,
      fun id hid => Nat.lt_succ_of_lt (hbelow id hid)⟩
  · refine List.forall_mem_cons.mpr ⟨fun id hid => ?_,
      fun x hx => hi.tokens x (List.mem_cons_of_mem _ hx)⟩
    cases hid
    show (s.tokens s.nextId).con = none
    rw [hi.fresh _ (Nat.le_refl _)]
  · obtain ⟨x, hx, hid, hip⟩ := hi.listed k hk id hid
    exact ⟨x, List.mem_cons_of_mem _ (hrest hx hid), hid, hip⟩
  · exact List.forall_mem_cons.mpr ⟨fun _ hcon => (nomatch hcon),
      fun x hx => hi.interrupted x (List.mem_cons_of_mem _ hx)⟩
  · obtain ⟨x, hx, hcon, id, hid, hcancelled⟩ := hi.hits con hcon
    exact ⟨x, List.mem_cons_of_mem _ (hrest hx hid), hcon, id, hid, hcancelled⟩

/-- The slots may be described in other words. -/
lemma Inv.describe (hi : Inv s hs) {running : List RunningQuery}
    (hsame : (running.map fun rq => (rq.id, rq.ip)) = s.running.map fun rq => (rq.id, rq.ip)) :
    Inv { s with running } hs := by
  refine { hi with slots := hsame ▸ hi.slots, counts := fun ip => ?_ }
  rw [length_runningForIp, show ({ s with running } : Server).running = running from rfl, hsame,
    ← length_runningForIp]
  exact hi.counts ip

/-- Without the query of a request, what is running is the slots of the others. -/
lemma Inv.others {con : Option ℕ} (hi : Inv s ({ ip, id := some id, con, slot := true } :: rest)) :
    ((s.running.filter fun rq => rq.id ≠ id).map fun rq => (rq.id, rq.ip)).Perm
    (rest.filterMap Holding.slot?) := by
  have hslots : (s.running.map fun rq => (rq.id, rq.ip)).Perm
      ((id, ip) :: rest.filterMap Holding.slot?) := hi.slots
  have hself : (rest.filterMap Holding.slot?).filter (fun x => x.1 ≠ id) =
      rest.filterMap Holding.slot? := by
    refine List.filter_eq_self.mpr fun x hx => ?_
    obtain ⟨h, hh, hslot⟩ := List.mem_filterMap.mp hx
    have hne := hi.id_ne rfl h hh
    rw [Holding.slot?] at hslot
    split_ifs at hslot
    obtain ⟨id', hid', rfl⟩ := Option.map_eq_some_iff.mp hslot
    simpa using fun hsame : id' = id => hne (hsame ▸ hid')
  have hfilter := hslots.filter fun x => x.1 ≠ id
  rw [List.filter_map, List.filter_cons_of_neg (by simp), hself] at hfilter
  exact hfilter

lemma Inv.release {con : Option ℕ} (hi : Inv s ({ ip, id := some id, con, slot := true } :: rest)) :
    Inv (release s id ip) ({ ip, id := some id, con } :: rest) := by
  have hslots : (s.running.map fun rq => (rq.id, rq.ip)).Perm
      ((id, ip) :: rest.filterMap Holding.slot?) := hi.slots
  have hcount : ∀ ip', (runningForIp s ip').length =
      (runningForIp (QuerySlots.release s id ip) ip').length + if ip = ip' then 1 else 0 := by
    intro ip'
    have hothers :
        (((QuerySlots.release s id ip).running.map fun rq => (rq.id, rq.ip)).filter fun x =>
          x.2 = ip').length =
        ((rest.filterMap Holding.slot?).filter fun x => x.2 = ip').length :=
        (hi.others.filter _).length_eq
    rw [length_runningForIp, length_runningForIp, (hslots.filter _).length_eq, hothers,
      List.filter_cons]
    by_cases h : ip = ip' <;> simp [h]
  refine { hi with
    slots := hi.others, counts := fun ip' => ?_
    tokens := ?_, listed := fun k hk id' hid' => ?_, interrupted := ?_, hits := fun c hc => ?_ }
  · have hold := hcount ip'
    have hremaining := hi.ipCount_eq ip
    show Function.update s.ipCounts ip (if ipCount s ip - 1 ≤
      0 then none else some (ipCount s ip - 1)) ip' = _
    rw [Function.update_apply]
    by_cases h : ip' = ip
    · subst h
      rw [if_pos rfl] at hold
      rw [if_pos rfl, hremaining, hold]
      by_cases hzero : (runningForIp (QuerySlots.release s id ip') ip').length = 0
      · rw [if_pos hzero, if_pos (by omega)]
      · rw [if_neg hzero, if_neg (by omega)]
        congr 1
        omega
    · rw [if_neg (Ne.symm h), Nat.add_zero] at hold
      rw [if_neg h, hi.counts ip', hold]
  · exact List.forall_mem_cons.mpr (List.forall_mem_cons.mp hi.tokens)
  · obtain ⟨x, hx, hid, hip⟩ := hi.listed k hk id' hid'
    rcases List.mem_cons.mp hx with rfl | hx
    · exact ⟨_, List.mem_cons_self, hid, hip⟩
    · exact ⟨x, List.mem_cons_of_mem _ hx, hid, hip⟩
  · exact List.forall_mem_cons.mpr (List.forall_mem_cons.mp hi.interrupted)
  · obtain ⟨x, hx, hcon, id', hid', hcancelled⟩ := hi.hits c hc
    rcases List.mem_cons.mp hx with rfl | hx
    · exact ⟨_, List.mem_cons_self, hcon, id', hid', hcancelled⟩
    · exact ⟨x, List.mem_cons_of_mem _ hx, hcon, id', hid', hcancelled⟩

/-! ### Cursors -/

/-- The token of one query has changed, but not whether it is cancelled. -/
lemma Inv.tokens_rest {t : CancelToken} (hi : Inv s (h :: rest)) (hid : h.id = some id) :
    ∀ x ∈ rest, ∀ id' ∈ x.id,
    (Function.update s.tokens id t id').con = x.bound? := fun x hx id' hid' => by
  have hne := hi.id_ne hid x hx
  rw [Function.update_apply, if_neg]
  · exact hi.tokens x (List.mem_cons_of_mem _ hx) id' hid'
  · rintro rfl
    exact hne hid'

lemma Inv.fresh_update {t : CancelToken} (hi : Inv s (h :: rest)) (hid : h.id = some id) {id' : ℕ}
    (hid' : s.nextId ≤ id') : Function.update s.tokens id t id' = {} := by
  have hbelow := hi.idsBelow id (List.mem_filterMap.mpr ⟨h, List.mem_cons_self, hid⟩)
  rw [Function.update_apply, if_neg (by omega)]
  exact hi.fresh id' hid'

lemma cancelled_update (s : Server) (con : Option ℕ) (id id' : ℕ) :
    (Function.update s.tokens id { s.tokens id with con } id').cancelled =
    (s.tokens id').cancelled := by
  rw [Function.update_apply]
  split_ifs with h
  · rw [h]
  · rfl

lemma Inv.bind (hi : Inv s ({ ip, id := some id, slot := true } :: rest)) :
    Inv { bindToken s id s.nextCon with nextCon := s.nextCon + 1 }
      ({ ip, id := some id, con := some s.nextCon, slot := true, bound := true } :: rest) := by
  have hcancelled := cancelled_update s (some s.nextCon) id
  have hcons : (rest.filterMap Holding.con).Nodup := hi.cons
  have hbelow : ∀ con ∈ rest.filterMap Holding.con, con < s.nextCon := hi.consBelow
  have hinterrupts : ∀ x, x ∈ (bindToken s id s.nextCon).interrupts ↔
      x ∈ s.interrupts ∨ (s.tokens id).cancelled = true ∧ x = ⟨s.nextCon, .cancelled⟩ := fun x => by
    rw [bindToken]
    by_cases h : (s.tokens id).cancelled = true <;> simp [h]
  refine { hi with
    cons := ?_, consBelow := ?_, tokens := ?_, fresh := fun _ hid' => hi.fresh_update rfl hid'
    cancelled := fun id' hid' => hi.cancelled id' (hcancelled id' ▸ hid'), listed :=
      fun k hk id' hid' => ?_
    pending := fun k hk => ?_, interrupted := ?_, hits := fun c hc => ?_ }
  · exact List.nodup_cons.mpr ⟨fun hmem => absurd (hbelow _ hmem) (Nat.lt_irrefl _), hcons⟩
  · exact List.forall_mem_cons.mpr ⟨Nat.lt_succ_self _,
      fun con hcon => Nat.lt_succ_of_lt (hbelow con hcon)⟩
  · refine List.forall_mem_cons.mpr ⟨fun id' hid' => ?_, hi.tokens_rest rfl⟩
    cases hid'
    show (Function.update s.tokens id _ id).con = some s.nextCon
    rw [Function.update_self]
  · obtain ⟨x, hx, hid, hip⟩ := hi.listed k hk id' hid'
    rcases List.mem_cons.mp hx with rfl | hx
    · exact ⟨_, List.mem_cons_self, hid, hip⟩
    · exact ⟨x, List.mem_cons_of_mem _ hx, hid, hip⟩
  · refine ⟨(hi.pending k hk).1, fun id' hid' hnot => ?_⟩
    exact (hcancelled id').trans ((hi.pending k hk).2 id' hid' hnot)
  · refine List.forall_mem_cons.mpr ⟨fun con hcon id' hid' hc => (hinterrupts _).mpr (.inr ?_),
      fun x hx con hcon id' hid' hc => (hinterrupts _).mpr (.inl ?_)⟩
    · cases hid'
      cases hcon
      exact ⟨(hcancelled id).symm.trans hc, rfl⟩
    · exact hi.interrupted x (List.mem_cons_of_mem _ hx) con hcon id' hid'
        ((hcancelled id').symm.trans hc)
  · rcases (hinterrupts _).mp hc with hold | ⟨hnow, hnew⟩
    · obtain ⟨x, hx, hcon, id', hid', hc⟩ := hi.hits c hold
      refine ⟨x, List.mem_cons_of_mem _ ((List.mem_cons.mp hx).resolve_left ?_), hcon, id', hid',
        (hcancelled id').trans hc⟩
      rintro rfl
      cases hcon
    · cases hnew
      exact ⟨_, List.mem_cons_self, rfl, id, rfl, (hcancelled id).trans hnow⟩

lemma Inv.timeOut (hi : Inv s hs) (con : ℕ) :
    Inv { s with interrupts := s.interrupts ++ [⟨con, .timedOut⟩] } hs :=
  { hi with
    interrupted := fun x hx con' hcon' id hid hc =>
      List.mem_append_left _ (hi.interrupted x hx con' hcon' id hid hc)
    hits := fun con' hmem => hi.hits con' ((List.mem_append.mp hmem).resolve_right fun h => by
      cases List.mem_singleton.mp h) }

lemma Inv.unbind {con : ℕ}
    (hi : Inv s ({ ip, id := some id, con := some con, slot := true, bound := true } :: rest)) :
    Inv (unbindToken s id) ({ ip, id := some id, con := some con, slot := true } :: rest) := by
  have hcancelled := cancelled_update s none id
  refine { hi with
    tokens := ?_, fresh := fun _ hid' => hi.fresh_update rfl hid'
    cancelled := fun id' hid' => hi.cancelled id' (hcancelled id' ▸ hid'), listed :=
      fun k hk id' hid' => ?_
    pending := fun k hk => ?_, interrupted := ?_, hits := fun c hc => ?_ }
  · refine List.forall_mem_cons.mpr ⟨fun id' hid' => ?_, hi.tokens_rest rfl⟩
    cases hid'
    show (Function.update s.tokens id _ id).con = none
    rw [Function.update_self]
  · obtain ⟨x, hx, hid, hip⟩ := hi.listed k hk id' hid'
    rcases List.mem_cons.mp hx with rfl | hx
    · exact ⟨_, List.mem_cons_self, hid, hip⟩
    · exact ⟨x, List.mem_cons_of_mem _ hx, hid, hip⟩
  · exact ⟨(hi.pending k hk).1, fun id' hid' hnot =>
      (hcancelled id').trans ((hi.pending k hk).2 id' hid' hnot)⟩
  · refine List.forall_mem_cons.mpr ⟨fun _ hcon => (nomatch hcon),
      fun x hx con' hcon' id' hid' hc => ?_⟩
    exact hi.interrupted x (List.mem_cons_of_mem _ hx) con' hcon' id' hid'
      ((hcancelled id').symm.trans hc)
  · obtain ⟨x, hx, hcon, id', hid', hc⟩ := hi.hits c hc
    rcases List.mem_cons.mp hx with rfl | hx
    · exact ⟨_, List.mem_cons_self, hcon, id', hid', (hcancelled id').trans hc⟩
    · exact ⟨x, List.mem_cons_of_mem _ hx, hcon, id', hid', (hcancelled id').trans hc⟩

/-! ### Killing -/

lemma mem_runningForIp {rq : RunningQuery} : rq ∈ runningForIp s ip ↔ rq ∈ s.running ∧
    rq.ip = ip := by
  simp [runningForIp]

/-- What is running is the queries of requests. -/
lemma Inv.mem_running (hi : Inv s hs) {rq : RunningQuery} (h : rq ∈ s.running) :
    ∃ h ∈ hs, h.id = some rq.id ∧ h.ip = rq.ip := by
  have hmem : (rq.id, rq.ip) ∈ hs.filterMap Holding.slot? :=
    hi.slots.mem_iff.mp (List.mem_map.mpr ⟨rq, h, rfl⟩)
  obtain ⟨h, hh, hslot⟩ := List.mem_filterMap.mp hmem
  rw [Holding.slot?] at hslot
  split_ifs at hslot
  obtain ⟨id, hid, hpair⟩ := Option.map_eq_some_iff.mp hslot
  obtain ⟨rfl, hip⟩ := Prod.mk.inj hpair
  exact ⟨h, hh, hid, hip⟩

lemma Inv.kill (hi : Inv s hs) (ip : String) :
    Inv { s with
      kills := s.kills ++ [⟨ip, (runningForIp s ip).map RunningQuery.id,
        (runningForIp s ip).map RunningQuery.id⟩] } hs := by
  refine { hi with
    cancelled := fun id hid => ?_, listed := fun k hk id hid => ?_, pending := fun k hk => ?_ }
  · obtain ⟨k, hk, hmem⟩ := hi.cancelled id hid
    exact ⟨k, List.mem_append_left _ hk, hmem⟩
  · rcases List.mem_append.mp hk with hk | hk
    · exact hi.listed k hk id hid
    · obtain rfl := List.mem_singleton.mp hk
      obtain ⟨rq, hrq, rfl⟩ := List.mem_map.mp hid
      obtain ⟨hrunning, hip⟩ := mem_runningForIp.mp hrq
      obtain ⟨h, hh, hid, hsame⟩ := hi.mem_running hrunning
      exact ⟨h, hh, hid, hsame.trans hip⟩
  · rcases List.mem_append.mp hk with hk | hk
    · exact hi.pending k hk
    · obtain rfl := List.mem_singleton.mp hk
      exact ⟨List.Subset.refl _, fun id hid hnot => absurd hid hnot⟩

lemma tokens_cancelToken (s : Server) (id id' : ℕ) :
    ((cancelToken s id).tokens id').con = (s.tokens id').con ∧
    (((cancelToken s id).tokens id').cancelled = true ↔ id' = id ∨
      (s.tokens id').cancelled = true) := by
  show (Function.update s.tokens id _ id').con = _ ∧
    ((Function.update s.tokens id _ id').cancelled = true ↔ _)
  rw [Function.update_apply]
  by_cases h : id' = id
  · subst h
    simp
  · simp [h]

lemma Inv.cancel (hi : Inv s hs) {k : ℕ} {kill : Kill} {rest : List ℕ}
    (hk : s.kills[k]? = some kill) (hpending : kill.pending = id :: rest) :
    Inv { cancelToken s id with kills := s.kills.set k { kill with pending := rest } } hs := by
  have hmem := List.mem_of_getElem? hk
  obtain ⟨hsub, hkilled⟩ := hi.pending kill hmem
  have hlisted : id ∈ kill.listed := hsub (hpending ▸ List.mem_cons_self)
  obtain ⟨h, hh, hid, hip⟩ := hi.listed kill hmem id hlisted
  have hcon := fun id' => (tokens_cancelToken s id id').1
  have hcancelled := fun id' => (tokens_cancelToken s id id').2
  -- The kills are those from before, one of them with less to do.
  have hset : ∀ x ∈ s.kills.set k { kill with pending := rest },
      x = { kill with pending := rest } ∨ x ∈ s.kills :=
    fun x hx => (List.mem_or_eq_of_mem_set hx).symm
  have hlists : ∀ x ∈ s.kills, ∃ y ∈ s.kills.set k { kill with pending := rest }, y.listed =
      x.listed := by
    intro x hx
    obtain ⟨j, hj⟩ := List.mem_iff_getElem?.mp hx
    by_cases hjk : k = j
    · subst hjk
      rw [hk] at hj
      cases hj
      exact ⟨_, List.mem_iff_getElem?.mpr ⟨k,
        List.getElem?_set_self (List.getElem?_eq_some_iff.mp hk).1⟩, rfl⟩
    · exact ⟨x, List.mem_iff_getElem?.mpr ⟨j, (List.getElem?_set_ne hjk).trans hj⟩, rfl⟩
  refine { hi with
    tokens := fun x hx id' hid' => (hcon id').trans (hi.tokens x hx id' hid'), fresh :=
      fun id' hid' => ?_
    cancelled := fun id' hid' => ?_, listed := fun x hx => ?_, pending := fun x hx => ?_
    interrupted := fun x hx con hbound id' hid' hc => ?_, hits := fun con hmem => ?_ }
  · have hbelow := hi.idsBelow id (List.mem_filterMap.mpr ⟨h, hh, hid⟩)
    have hnew : s.nextId ≤ id' := hid'
    show Function.update s.tokens id _ id' = {}
    rw [Function.update_apply, if_neg (by omega)]
    exact hi.fresh id' hnew
  · rcases (hcancelled id').mp hid' with rfl | hid'
    · obtain ⟨y, hy, hsame⟩ := hlists kill hmem
      exact ⟨y, hy, hsame ▸ hlisted⟩
    · obtain ⟨x, hx, hxid⟩ := hi.cancelled id' hid'
      obtain ⟨y, hy, hsame⟩ := hlists x hx
      exact ⟨y, hy, hsame ▸ hxid⟩
  · rcases hset x hx with rfl | hx
    · exact hi.listed kill hmem
    · exact hi.listed x hx
  · rcases hset x hx with rfl | hx
    · refine ⟨fun j hj => hsub (hpending ▸ List.mem_cons_of_mem _ hj),
        fun id' hid' hnot => (hcancelled id').mpr ?_⟩
      by_cases hsame : id' = id
      · exact .inl hsame
      · refine .inr (hkilled id' hid' fun hpend => ?_)
        rw [hpending] at hpend
        exact hnot ((List.mem_cons.mp hpend).resolve_left hsame)
    · exact ⟨(hi.pending x hx).1,
        fun id' hid' hnot => (hcancelled id').mpr (.inr ((hi.pending x hx).2 id' hid' hnot))⟩
  · rcases (hcancelled id').mp hc with rfl | hc
    · have hbind := hi.tokens x hx id' hid'
      refine List.mem_append_right _ (List.mem_map.mpr ⟨con, ?_, rfl⟩)
      rw [hbind]
      exact Option.mem_toList.mpr hbound
    · exact List.mem_append_left _ (hi.interrupted x hx con hbound id' hid' hc)
  · rcases List.mem_append.mp hmem with hmem | hmem
    · obtain ⟨x, hx, hxcon, id', hid', hc⟩ := hi.hits con hmem
      exact ⟨x, hx, hxcon, id', hid', (hcancelled id').mpr (.inr hc)⟩
    · obtain ⟨con', hcon', hsame⟩ := List.mem_map.mp hmem
      cases hsame
      have hbound : con ∈ h.bound? := by
        rw [← hi.tokens h hh id hid]
        exact Option.mem_toList.mp hcon'
      refine ⟨h, hh, ?_, id, hid, (hcancelled id).mpr (.inl rfl)⟩
      rw [Holding.bound?] at hbound
      split_ifs at hbound
      · exact hbound
      · cases hbound

/-! ### Steps keep it -/

lemma inv_move {r : Request} {e : RequestEvent} {p : Phase} (hi : Inv s (r.holding :: rest))
    (h : move s r e = some (s', p)) :
    Inv s' (({ r with phase := p } : Request).holding :: rest) := by
  obtain ⟨ip, timeout, maxsize, phase⟩ := r
  cases e with
  | acquire now =>
    cases phase with
    | parsed =>
      cases hacquire : tryAcquire s ip now with
      | none =>
        simp only [move, hacquire] at h
        cases h
        exact hi
      | some x =>
        simp only [move, hacquire] at h
        cases h
        exact hi.acquire hacquire
    | _ => cases h
  | describe =>
    cases phase with
    | acquired id =>
      cases h
      refine hi.describe ?_
      rw [List.map_map]
      refine List.map_congr_left fun rq _ => ?_
      dsimp only [Function.comp]
      split_ifs <;> rfl
    | _ => cases h
  | fail =>
    cases phase with
    | described id =>
      cases h
      exact hi
    | _ => cases h
  | bind =>
    cases phase with
    | described id =>
      cases h
      exact hi.bind
    | _ => cases h
  | timeOut =>
    cases phase with
    | bound id con =>
      cases h
      exact hi.timeOut con
    | _ => cases h
  | close =>
    cases phase with
    | bound id con =>
      cases h
      exact hi
    | _ => cases h
  | unbind =>
    cases phase with
    | closed id con =>
      cases h
      exact hi.unbind
    | _ => cases h
  | release =>
    cases phase with
    | ended id con =>
      cases h
      exact hi.release
    | _ => cases h

/-- **One step**, of a request, of one that kills, or of the limits. -/
lemma inv_step {e : Event} (hi : Inv s (s.requests.map Request.holding)) (h : step s e = some s') :
    Inv s' (s'.requests.map Request.holding) := by
  cases e with
  | arrive ip timeout maxsize =>
    cases h
    have hnew := (hi.arrive ip).perm (List.perm_append_singleton _ _).symm
    rw [List.map_append]
    exact { hnew with }
  | request i e =>
    obtain ⟨r, hr, hmoved⟩ := Option.bind_eq_some_iff.mp h
    obtain ⟨⟨s₁, p⟩, hmove, rfl⟩ := Option.map_eq_some_iff.mp hmoved
    obtain ⟨hlt, rfl⟩ := List.getElem?_eq_some_iff.mp hr
    have hold : (s.requests.map Request.holding).Perm
        (s.requests[i].holding :: (s.requests.eraseIdx i).map Request.holding) :=
      ((List.getElem_cons_eraseIdx_perm hlt).symm.map Request.holding)
    have hnew :=
      (List.set_perm_cons_eraseIdx hlt { s.requests[i] with phase := p }).map Request.holding
    exact { (inv_move (hi.perm hold) hmove).perm hnew.symm with }
  | kill ip =>
    cases h
    exact { hi.kill ip with }
  | cancel k =>
    obtain ⟨kill, hkill, h⟩ := Option.bind_eq_some_iff.mp h
    cases hpending : kill.pending with
    | nil =>
      rw [hpending] at h
      cases h
    | cons id rest =>
      rw [hpending] at h
      cases h
      exact hi.cancel hkill hpending
  | setLimits limits =>
    cases h
    exact { hi with }

lemma inv_play {limits : Limits} {es : List Event} (h : play step { limits } es = some s) :
    Inv s (s.requests.map Request.holding) :=
  play_keeps_always (I := fun s => Inv s (s.requests.map Request.holding)) (fun _ _ _ => inv_step)
    (inv_start limits) h

end Invariant

/-! ### What holds of every run -/

/-- The requests of an address that have a slot. -/
def held (s : Server) (ip : String) : ℕ :=
  (s.requests.filter fun r => r.holding.slot && decide (r.ip = ip)).length

/-- The limits never go beyond these. -/
def Mild (slotsPerIp maxConcurrent : ℕ) : Event → Prop
  | .setLimits limits => limits.slotsPerIp ≤ slotsPerIp ∧ limits.maxConcurrent ≤ maxConcurrent
  | _ => True

structure Within (slotsPerIp maxConcurrent : ℕ) (s : Server) : Prop where
  perIp : ∀ ip, (runningForIp s ip).length ≤ slotsPerIp
  all : s.running.length ≤ maxConcurrent
  slotsPerIp : s.limits.slotsPerIp ≤ slotsPerIp
  maxConcurrent : s.limits.maxConcurrent ≤ maxConcurrent

section Runs

variable {s s' : Server} {P M : ℕ} {hs : List Holding}

lemma length_slots (rs : List Request) (ip : String) :
    (((rs.map Request.holding).filterMap Holding.slot?).filter fun x => x.2 = ip).length =
      (rs.filter fun r => r.holding.slot && decide (r.ip = ip)).length := by
  induction rs with
  | nil => rfl
  | cons r rs ih =>
    have hslot : r.holding.slot? = if r.holding.slot then r.holding.id.map fun id =>
        (id, r.ip) else none := by
      obtain ⟨ip', timeout, maxsize, phase⟩ := r
      cases phase <;> rfl
    have hid : r.holding.slot = true → r.holding.id.isSome = true := by
      obtain ⟨ip', timeout, maxsize, phase⟩ := r
      cases phase <;> simp [Request.holding]
    rw [List.map_cons, List.filterMap_cons, hslot]
    by_cases h : r.holding.slot = true
    · obtain ⟨id, hid⟩ := Option.isSome_iff_exists.mp (hid h)
      by_cases hip : r.ip = ip <;> simpa [h, hid, hip] using ih
    · simpa [h] using ih

lemma Inv.held_eq (hi : Inv s (s.requests.map Request.holding)) (ip : String) :
    (runningForIp s ip).length = held s ip := by
  rw [length_runningForIp, (hi.slots.filter _).length_eq, length_slots, held]

/-- A request takes a slot, or there are no more slots than before. -/
lemma move_cases {r : Request} {e : RequestEvent} {p : Phase} (h : move s r e = some (s', p)) :
    (∃ now rq, tryAcquire s r.ip now = some (s', rq)) ∨ s'.limits = s.limits ∧
      (s'.running.map fun rq => (rq.id, rq.ip)).Sublist
      (s.running.map fun rq => (rq.id, rq.ip)) := by
  obtain ⟨ip, timeout, maxsize, phase⟩ := r
  cases e with
  | acquire now =>
    cases phase with
    | parsed =>
      cases hacquire : tryAcquire s ip now with
      | none =>
        simp only [move, hacquire] at h
        cases h
        exact .inr ⟨rfl, .refl _⟩
      | some x =>
        simp only [move, hacquire] at h
        cases h
        exact .inl ⟨now, x.2, hacquire⟩
    | _ => cases h
  | describe =>
    cases phase with
    | acquired id =>
      cases h
      refine .inr ⟨rfl, ?_⟩
      rw [List.map_map, List.map_congr_left (g := fun rq => (rq.id, rq.ip)) fun rq _ => ?_]
      dsimp only [Function.comp]
      split_ifs <;> rfl
    | _ => cases h
  | release =>
    cases phase with
    | ended id con =>
      cases h
      exact .inr ⟨rfl, List.filter_sublist.map _⟩
    | _ => cases h
  | _ =>
    cases phase <;> cases h
    exact .inr ⟨rfl, .refl _⟩

lemma tryAcquire_within {ip : String} {now : ℤ} {rq : RunningQuery} (hi : Inv s hs)
    (hw : Within P M s) (h : tryAcquire s ip now = some (s', rq)) : Within P M s' := by
  have hcount := hi.ipCount_eq ip
  have hslots := hw.slotsPerIp
  have hmax := hw.maxConcurrent
  rw [tryAcquire] at h
  split_ifs at h with hall hip
  cases h
  refine ⟨fun ip' => ?_, ?_, hslots, hmax⟩
  · have hold := hw.perIp ip'
    show ((s.running ++ [_]).filter fun rq : RunningQuery => decide (rq.ip = ip')).length ≤ P
    rw [List.filter_append, List.length_append]
    by_cases hsame : ip = ip'
    · subst hsame
      have hroom : (runningForIp s ip).length < P := by omega
      rw [runningForIp] at hroom
      simpa using Nat.succ_le_of_lt hroom
    · rw [runningForIp] at hold
      simpa [hsame] using hold
  · show (s.running ++ [_]).length ≤ M
    rw [List.length_append, List.length_singleton]
    omega

lemma within_step {e : Event} (hi : Inv s (s.requests.map Request.holding)) (hw : Within P M s)
    (he : Mild P M e) (h : step s e = some s') : Within P M s' := by
  cases e with
  | request i e =>
    obtain ⟨r, hr, hmoved⟩ := Option.bind_eq_some_iff.mp h
    obtain ⟨⟨s₁, p⟩, hmove, rfl⟩ := Option.map_eq_some_iff.mp hmoved
    rcases move_cases hmove with ⟨now, rq, hacquire⟩ | ⟨hlimits, hsub⟩
    · exact { tryAcquire_within hi hw hacquire with }
    · refine ⟨fun ip => ?_, ?_, hlimits ▸ hw.slotsPerIp, hlimits ▸ hw.maxConcurrent⟩
      · have hless := (hsub.filter fun x => x.2 = ip).length_le
        rw [← length_runningForIp, ← length_runningForIp] at hless
        exact Nat.le_trans hless (hw.perIp ip)
      · have hless := hsub.length_le
        rw [List.length_map, List.length_map] at hless
        exact Nat.le_trans hless hw.all
  | arrive ip timeout maxsize =>
    cases h
    exact { hw with }
  | kill ip =>
    cases h
    exact { hw with }
  | cancel k =>
    obtain ⟨kill, hkill, h⟩ := Option.bind_eq_some_iff.mp h
    cases hpending : kill.pending with
    | nil =>
      rw [hpending] at h
      cases h
    | cons id rest =>
      rw [hpending] at h
      cases h
      exact { hw with }
  | setLimits limits =>
    cases h
    exact { hw with slotsPerIp := he.1, maxConcurrent := he.2 }

/-- The status of an address tells a slot just when there is one to take. -/
lemma Inv.acquire_iff (hi : Inv s hs) (ip : String) (now : ℤ) :
    (tryAcquire s ip now).isSome = true ↔
    (s.running.length : ℤ) < s.limits.maxConcurrent ∧ 0 < available s ip := by
  have hcount := hi.ipCount_eq ip
  rw [tryAcquire, available]
  by_cases hall : s.limits.maxConcurrent ≤ s.running.length
  · rw [if_pos hall]
    exact ⟨fun h => (nomatch h), fun h => absurd h.1 (by omega)⟩
  · rw [if_neg hall]
    by_cases hip : s.limits.slotsPerIp ≤ ipCount s ip
    · rw [if_pos hip]
      refine ⟨fun h => (nomatch h), fun h => absurd h.2 ?_⟩
      omega
    · rw [if_neg hip]
      exact ⟨fun _ => ⟨by omega, by omega⟩, fun _ => rfl⟩

/-- The number of a query belongs to one request. -/
lemma Inv.id_unique (hi : Inv s hs) {h h' : Holding} (hh : h ∈ hs) (hh' : h' ∈ hs) {id : ℕ}
    (hid : h.id = some id) (hid' : h'.id = some id) : h = h' := by
  by_contra hne
  have hpair : hs.Pairwise fun a b => ∀ x ∈ a.id, ∀ y ∈ b.id, x ≠ y :=
    List.pairwise_filterMap.mp hi.ids
  have hsymm : Std.Symm fun a b : Holding => ∀ x ∈ a.id, ∀ y ∈ b.id, x ≠ y :=
    ⟨fun _ _ hab y hy x hx => (hab x hx y hy).symm⟩
  exact hpair.forall hh hh' hne id hid id hid' rfl

end Runs

/-- **The slots are exact.** In every run of requests side by side, what is counted for an address
is the number of its requests between taking and giving back a slot, and nothing if there are none;
no two queries have one number; no limit is passed; and the status tells a slot just when there is
one. -/
theorem slots_exact {P M : ℕ} {limits : Limits} (hslots : limits.slotsPerIp ≤ P)
    (hall : limits.maxConcurrent ≤ M) {es : List Event} (hes : ∀ e ∈ es, Mild P M e) {s : Server}
    (h : play step { limits } es = some s) :
    (∀ ip, s.ipCounts ip = if held s ip = 0 then none else some (held s ip : ℤ)) ∧
      (s.running.map fun rq => (rq.id, rq.ip)).Perm
      ((s.requests.map Request.holding).filterMap Holding.slot?) ∧
      ((s.requests.map Request.holding).filterMap Holding.id).Nodup ∧
      s.running.length ≤ M ∧ (∀ ip, held s ip ≤ P) ∧
      ∀ ip now, (tryAcquire s ip now).isSome = true ↔
        (s.running.length : ℤ) < s.limits.maxConcurrent ∧ 0 < available s ip := by
  have hi := inv_play h
  have hkeeps : ∀ s e s', Inv s (s.requests.map Request.holding) ∧ Within P M s → Mild P M e →
      step s e = some s' → Inv s' (s'.requests.map Request.holding) ∧
        Within P M s' := fun s e s' hs he hstep =>
    ⟨inv_step hs.1 hstep, within_step hs.1 hs.2 he hstep⟩
  have hwithin := (play_keeps hkeeps
    ⟨inv_start limits, ⟨fun _ => Nat.zero_le _, Nat.zero_le _, hslots, hall⟩⟩
      (along_of_forall hes) h).2
  refine ⟨fun ip => ?_, hi.slots, hi.ids, hwithin.all, fun ip => ?_, hi.acquire_iff⟩
  · rw [hi.counts, hi.held_eq]
  · rw [← hi.held_eq]
    exact hwithin.perIp ip

/-- Two requests of one address and one of another; the first is killed before it has its cursor,
and ends. -/
def killedEarly : List Event :=
  [.arrive "a" 0 0, .arrive "a" 25 0, .arrive "b" 0 0, .request 0 (.acquire 10),
    .request 1 (.acquire 11), .request 0 .describe, .kill "a", .request 2 (.acquire 12), .cancel 0,
    .request 0 .bind, .cancel 0, .request 1 .describe, .request 1 .bind, .request 0 .close,
      .request 0 .unbind, .request 0 .release]

lemma killedEarly_plays : ∃ s, play step {} killedEarly = some s ∧ held s "a" = 1 ∧ held s "b" = 1 ∧
    s.interrupts = [⟨0, .cancelled⟩, ⟨1, .cancelled⟩] := ⟨_, rfl, rfl, rfl, rfl⟩

theorem slots_exact_killedEarly : ∃ s, play step {} killedEarly = some s ∧ s.ipCounts "a" = some 1 ∧
    (∀ ip now, (tryAcquire s ip now).isSome = true ↔
      (s.running.length : ℤ) < s.limits.maxConcurrent ∧ 0 < available s ip) := by
  obtain ⟨s, hs, ha, -⟩ := killedEarly_plays
  have hslots : ({} : Limits).slotsPerIp ≤ (2 : ℕ) := by decide
  have hall : ({} : Limits).maxConcurrent ≤ (8 : ℕ) := by decide
  have hexact := slots_exact hslots hall (by simp [killedEarly, Mild]) hs
  refine ⟨s, hs, ?_, hexact.2.2.2.2.2⟩
  rw [hexact.1, ha]
  rfl

/-- **Whoever kills queries kills their own, and all of them.** A cursor is interrupted by a cancel
only if it is that of a query which a request from the same address has listed; and a listed query
that has been cancelled, before it had a cursor or since, has its cursor interrupted as long as it
is bound. -/
theorem kills_own_queries {limits : Limits} {es : List Event} {s : Server}
    (h : play step { limits } es = some s) :
    (∀ con, ⟨con, .cancelled⟩ ∈ s.interrupts → ∃ r ∈ s.requests, r.holding.con = some con ∧
      ∃ id, r.holding.id = some id ∧ ∃ k ∈ s.kills, k.ip = r.ip ∧ id ∈ k.listed) ∧
    ((s.requests.map Request.holding).filterMap Holding.con).Nodup ∧
    ∀ r ∈ s.requests, ∀ con ∈ r.holding.bound?, ∀ k ∈ s.kills, ∀ id ∈ r.holding.id, id ∈ k.listed →
      id ∉ k.pending → ⟨con, .cancelled⟩ ∈ s.interrupts := by
  have hi := inv_play h
  refine ⟨fun con hcon => ?_, hi.cons, fun r hr con hcon k hk id hid hlisted hpending => ?_⟩
  · obtain ⟨x, hx, hxcon, id, hid, hcancelled⟩ := hi.hits con hcon
    obtain ⟨k, hk, hlisted⟩ := hi.cancelled id hcancelled
    obtain ⟨y, hy, hyid, hip⟩ := hi.listed k hk id hlisted
    obtain rfl := hi.id_unique hx hy hid hyid
    obtain ⟨r, hr, rfl⟩ := List.mem_map.mp hx
    refine ⟨r, hr, hxcon, id, hid, k, hk, hip.symm.trans ?_, hlisted⟩
    obtain ⟨ip, timeout, maxsize, phase⟩ := r
    cases phase <;> rfl
  · exact hi.interrupted r.holding (List.mem_map_of_mem hr) con hcon id hid
      ((hi.pending k hk).2 id hlisted hpending)

theorem kills_own_queries_killedEarly : ∃ s, play step {} killedEarly = some s ∧
    ∀ con, ⟨con, .cancelled⟩ ∈ s.interrupts → ∃ r ∈ s.requests, r.holding.con = some con ∧
      ∃ id, r.holding.id = some id ∧ ∃ k ∈ s.kills, k.ip = r.ip ∧ id ∈ k.listed := by
  obtain ⟨s, hs, -⟩ := killedEarly_plays
  exact ⟨s, hs, (kills_own_queries hs).1⟩

end OsmParquet.QuerySlots
