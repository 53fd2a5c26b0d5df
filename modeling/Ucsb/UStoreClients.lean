import Mathlib.Data.List.Nodup
import Ucsb.SessionCalls

namespace Ucsb

open StepSystem Tally

/-- How the engine under `ustore_t` was chosen when it was built. -/
inductive UStoreEngine
  | embedded
  | flightClient
  | ucset
  deriving DecidableEq

/-- `clients_`, `client_index_`, the `client_` of each thread and the database that its
transaction holds; the databases initialised so far are numbered, and those not freed listed. -/
structure UStoreClients (n : ℕ) where
  clients : List ℕ
  clientIndex : ℕ
  client : Fin n → Option ℕ
  transaction : Fin n → Option ℕ
  made : ℕ
  alive : List ℕ

namespace UStoreClients

variable {n : ℕ} (engine : UStoreEngine)

def start (n : ℕ) : UStoreClients n :=
  { clients := [], clientIndex := 0, client := fun _ => none, transaction := fun _ => none
    made := 0, alive := [] }

def clientsCount (n : ℕ) : ℕ := if engine = .flightClient then n else 1

def setClient (c : UStoreClients n) (i : Fin n) (client : Option ℕ) : UStoreClients n :=
  { c with client := Function.update c.client i client }

/-- `client_ = clients_[index]`, with what the index is left at. -/
def assign (c : UStoreClients n) (i : Fin n) (client clientIndex : ℕ) : UStoreClients n :=
  { c with client := Function.update c.client i (some client), clientIndex := clientIndex }

def setTransaction (c : UStoreClients n) (i : Fin n) (db : Option ℕ) : UStoreClients n :=
  { c with transaction := Function.update c.transaction i db }

/-- `open`, on thread 0: it stops where that thread has a client. -/
def openDb (c : UStoreClients n) (zero : Fin n) : UStoreClients n :=
  if (c.client zero).isSome then c
  else
    let clients := List.range' c.made (clientsCount engine n)
    { c with
      clients := clients, made := c.made + clientsCount engine n, alive := c.alive ++ clients }

/-- `map_client`: a client past the end of `clients_` is none. -/
def mapClient (c : UStoreClients n) (i : Fin n) : Option (UStoreClients n) :=
  if (c.client i).isSome then some c
  else if engine = .flightClient then
    c.clients[c.clientIndex]?.map fun client => c.assign i client (c.clientIndex + 1)
  else c.clients[0]?.map fun client => c.assign i client c.clientIndex

/-- A call with a database that is not alive is none. -/
def callWith (c : UStoreClients n) (db : Option ℕ) : Option (UStoreClients n) :=
  db.bind fun db => if db ∈ c.alive then some c else none

/-- `free`, on thread 0. -/
def free (c : UStoreClients n) (zero : Fin n) : Option (UStoreClients n) :=
  if c.clients ⊆ c.alive ∧ c.clients.Nodup then
    some { c.setClient zero none with
      clients := [], alive := c.alive.filter fun db => db ∉ c.clients }
  else none

/-- The database behind the calls of a run. Threads other than 0 are made anew for each
workload, and what is local to them goes when they end. -/
def follow (zero : Fin n) (c : UStoreClients n) (call : SessionCall n) :
    Option (UStoreClients n) :=
  match call with
  | .open ok => if ok then some (c.openDb engine zero) else some c
  | .createTransaction i ok =>
    (c.mapClient engine i).bind fun c => (c.callWith (c.client i)).map fun c =>
      if ok then c.setTransaction i (c.client i) else c
  | .use i =>
    match c.transaction i with
    | some db => c.callWith (some db)
    | none => (c.mapClient engine i).bind fun c => c.callWith (c.client i)
  | .commit i => (c.callWith (c.transaction i)).map fun c => c.setTransaction i none
  | .close =>
    let c := { c with clientIndex := 0 }
    if engine = .ucset then some c else c.free zero
  | .finish i => if i = zero then some c else some (c.setClient i none)

end UStoreClients

section

variable {n : ℕ} (plan : SessionPlan n) (zero : Fin n)

/-- In the workload that thread 0 has the database open for, before its second fence
has let the thread pass. -/
def Session.Inside (s : Session n) (i : Fin n) : Prop :=
  (s.threads i).stage = 1 ∧ (s.threads i).workload = (s.threads zero).workload ∧
    (s.threads zero).opened = true

/-- Past the second fence of the workload that thread 0 is in. -/
def Session.Gone (s : Session n) (i : Fin n) : Prop :=
  2 * (s.threads zero).workload + 2 ≤ (s.threads i).synced

/-- Where a thread has had a call of its own to make. -/
def SessionThread.HasCalled (i : Fin n) (t : SessionThread) : Prop :=
  0 < t.workload ∨ match t.point with
  | .operating left => plan.transactional = true ∨ left < plan.operations t.workload i
  | .unwinding | .committing | .closeFence | .closing | .leaving => True
  | _ => False

instance (s : Session n) (i : Fin n) : Decidable (s.Inside zero i) :=
  inferInstanceAs (Decidable (_ ∧ _ ∧ _))

instance (s : Session n) (i : Fin n) : Decidable (s.Gone zero i) :=
  inferInstanceAs (Decidable (_ ≤ _))

end

namespace UStoreClients

variable {n : ℕ} {engine : UStoreEngine} {plan : SessionPlan n} {zero i : Fin n}
  {s : Session n} {c : UStoreClients n}

/-- The thread may have taken a client since the database was opened. -/
def Served (s : Session n) (zero : Fin n) (c : UStoreClients n) (i : Fin n) : Prop :=
  s.Inside zero i ∧ (c.client i).isSome ∨ s.Gone zero i

instance (s : Session n) (zero : Fin n) (c : UStoreClients n) :
    DecidablePred (Served s zero c) :=
  fun _ => inferInstanceAs (Decidable (_ ∧ _ ∨ _))

/-- The clients in the state that a run leaves them in. -/
structure Serves (engine : UStoreEngine) (plan : SessionPlan n) (zero : Fin n) (s : Session n)
    (c : UStoreClients n) : Prop where
  nodup : c.clients.Nodup
  alive : c.alive = c.clients
  made : ∀ db ∈ c.clients, db < c.made
  opened : (s.threads zero).opened = true → c.clients.length = clientsCount engine n
  closed : (s.threads zero).opened = false →
    c.clientIndex = 0 ∧ (engine ≠ .ucset → c.clients = [])
  client : ∀ i db, s.Inside zero i ∨ i = zero → c.client i = some db → db ∈ c.clients
  fresh : ∀ i, i ≠ zero ∨ engine ≠ .ucset → (s.threads i).stage = 0 → c.client i = none
  transaction : ∀ i, if (s.threads i).inTransaction plan then
    ∃ db ∈ c.clients, c.transaction i = some db else c.transaction i = none
  index : if engine = .flightClient then c.clientIndex ≤ tally (Served s zero c) id
    else c.clientIndex = 0
  taken : engine = .flightClient → ∀ i db, s.Inside zero i → c.client i = some db →
    db ∈ c.clients.take c.clientIndex
  distinct : engine = .flightClient → ∀ i j db, s.Inside zero i → s.Inside zero j → i ≠ j →
    c.client i = some db → c.client j ≠ some db
  kept : engine = .ucset → (s.threads zero).HasCalled plan zero → (c.client zero).isSome
  single : engine = .ucset → c.made = c.clients.length ∧ c.made ≤ 1 ∧
    ((s.threads zero).workload = 0 → (s.threads zero).opened = false →
      (s.threads zero).point ≠ .leaving → c.made = 0)

theorem inside_of_using (hs : s.Apart plan) (hstage : (s.threads i).stage = 1)
    (hpoint : (s.threads i).point ≠ .closeFence) : s.Inside zero i := by
  obtain ⟨hworkload, _⟩ := hs.using_open hstage hpoint zero
  exact ⟨hstage, hworkload.symm, hs.isOpen zero hstage hpoint⟩

theorem not_gone (hinside : s.Inside zero i) : ¬s.Gone zero i := by
  intro hgone
  rw [Session.Gone, SessionThread.synced, hinside.1, hinside.2.1] at hgone
  omega

theorem not_mem_take {clients : List ℕ} (h : clients.Nodup) {k db : ℕ}
    (hget : clients[k]? = some db) : db ∉ clients.take k := by
  obtain ⟨hk, hdb⟩ := List.getElem?_eq_some_iff.mp hget
  intro hmem
  obtain ⟨j, hj, heq⟩ := List.mem_take_iff_getElem.mp hmem
  have hjk := h.getElem_inj_iff.mp (heq.trans hdb.symm)
  omega

/-- A client of its own for a thread inside that has none. -/
theorem Serves.assign (h : c.Serves engine plan zero s) (hinside : s.Inside zero i)
    (hnone : c.client i = none) {db clientIndex : ℕ} (hdb : db ∈ c.clients)
    (hindex : if engine = .flightClient then clientIndex = c.clientIndex + 1 ∧
      c.clients[c.clientIndex]? = some db else clientIndex = c.clientIndex) :
    (c.assign i db clientIndex).Serves engine plan zero s := by
  have hself : (c.assign i db clientIndex).client i = some db := Function.update_self _ _ _
  have hother : ∀ j, j ≠ i → (c.assign i db clientIndex).client j = c.client j :=
    fun j hj => Function.update_of_ne hj _ _
  have hclients : (c.assign i db clientIndex).clients = c.clients := rfl
  have hindex' : (c.assign i db clientIndex).clientIndex = clientIndex := rfl
  have hfresh : ∀ j, j ≠ i → engine = .flightClient → s.Inside zero j → c.client j ≠ some db := by
    intro j hji hflight hj hclient
    rw [if_pos hflight] at hindex
    exact not_mem_take h.nodup hindex.2 (h.taken hflight j db hj hclient)
  refine ⟨h.nodup, h.alive, h.made, h.opened, fun hclosed => ?_, fun j db' hj hclient => ?_,
    fun j hj hstage => ?_, h.transaction, ?_, fun hflight j db' hj hclient => ?_,
    fun hflight j k db' hj hk hne hclient hclient' => ?_, fun hucset hcalled => ?_, h.single⟩
  · rw [hinside.2.2] at hclosed
    cases hclosed
  · by_cases hji : j = i
    · subst hji
      cases Option.some.inj (hself.symm.trans hclient)
      exact hdb
    · exact h.client j db' hj ((hother j hji).symm.trans hclient)
  · have hji : j ≠ i := by
      intro heq
      rw [heq, hinside.1] at hstage
      cases hstage
    exact (hother j hji).trans (h.fresh j hj hstage)
  · have hbefore := h.index
    by_cases hflight : engine = .flightClient
    · rw [if_pos hflight] at hindex hbefore ⊢
      have hlt : tally (Served s zero c) id <
          tally (Served s zero (c.assign i db clientIndex)) id := by
        refine tally_lt_tally (i := i) (fun j hj => ?_) (fun hserved => ?_) (.inl ⟨hinside, ?_⟩)
        · rcases hj with ⟨hj, hsome⟩ | hgone
          · have hji : j ≠ i := by
              intro heq
              simp [heq, hnone] at hsome
            exact .inl ⟨hj, (hother j hji).symm ▸ hsome⟩
          · exact .inr hgone
        · rcases hserved with ⟨_, hsome⟩ | hgone
          · simp [hnone] at hsome
          · exact not_gone hinside hgone
        · simp [hself]
      have hnext := hindex.1
      rw [hindex']
      omega
    · rw [if_neg hflight] at hindex hbefore ⊢
      exact hindex.trans hbefore
  · rw [if_pos hflight] at hindex
    rw [hclients, hindex', hindex.1]
    by_cases hji : j = i
    · subst hji
      cases Option.some.inj (hself.symm.trans hclient)
      rw [List.take_add_one, hindex.2]
      exact List.mem_append_right _ (List.mem_singleton_self _)
    · have hmem := h.taken hflight j db' hj ((hother j hji).symm.trans hclient)
      exact List.take_subset_take_left c.clients (Nat.le_succ _) hmem
  · by_cases hji : j = i
    · subst hji
      cases Option.some.inj (hself.symm.trans hclient)
      exact hfresh k (Ne.symm hne) hflight hk ((hother k (Ne.symm hne)).symm.trans hclient')
    · rw [hother j hji] at hclient
      by_cases hki : k = i
      · subst hki
        cases Option.some.inj (hself.symm.trans hclient')
        exact hfresh j hji hflight hj hclient
      · rw [hother k hki] at hclient'
        exact h.distinct hflight j k db' hj hk hne hclient hclient'
  · by_cases hzero : zero = i
    · rw [hzero, hself]
      rfl
    · rw [hother zero hzero]
      exact h.kept hucset hcalled

/-- A thread that has come past the first fence finds a client, and one of its own where
there is one for each. -/
theorem Serves.mapClient (h : c.Serves engine plan zero s) (hs : s.Apart plan)
    (hstage : (s.threads i).stage = 1) (hpoint : (s.threads i).point ≠ .closeFence) :
    ∃ c', c.mapClient engine i = some c' ∧ c'.Serves engine plan zero s ∧
      (∃ db ∈ c'.clients, c'.client i = some db) ∧ c'.transaction = c.transaction := by
  have hinside : s.Inside zero i := inside_of_using hs hstage hpoint
  unfold UStoreClients.mapClient
  cases hclient : c.client i with
  | some db =>
    exact ⟨c, rfl, h, ⟨db, h.client i db (.inl hinside) hclient, hclient⟩, rfl⟩
  | none =>
    have hlength := h.opened hinside.2.2
    have hindex := h.index
    by_cases hflight : engine = .flightClient
    · rw [if_pos hflight] at hindex
      have hserved : tally (Served s zero c) id < Fintype.card (Fin n) := by
        refine tally_lt_card (i := i) ?_
        rintro (⟨_, hsome⟩ | hgone)
        · simp [hclient] at hsome
        · exact not_gone hinside hgone
      have hlt : c.clientIndex < c.clients.length := by
        rw [hlength, clientsCount, if_pos hflight]
        rw [Fintype.card_fin] at hserved
        omega
      obtain ⟨db, hget⟩ : ∃ db, c.clients[c.clientIndex]? = some db :=
        ⟨_, List.getElem?_eq_getElem hlt⟩
      have hdb := List.mem_of_getElem? hget
      refine ⟨_, by simp [hflight, hget]; rfl, h.assign hinside hclient hdb ?_,
        ⟨db, hdb, by simp [UStoreClients.assign]⟩, rfl⟩
      rw [if_pos hflight]
      exact ⟨rfl, hget⟩
    · have hlt : 0 < c.clients.length := by
        rw [hlength, clientsCount, if_neg hflight]
        exact Nat.zero_lt_one
      obtain ⟨db, hget⟩ : ∃ db, c.clients[0]? = some db := ⟨_, List.getElem?_eq_getElem hlt⟩
      have hdb := List.mem_of_getElem? hget
      refine ⟨_, by simp [hflight, hget]; rfl, h.assign hinside hclient hdb ?_,
        ⟨db, hdb, by simp [UStoreClients.assign]⟩, rfl⟩
      rw [if_neg hflight]

section

variable {t : SessionThread} {calls : List (SessionCall n)}

/-- The session after thread `i` has moved. -/
def moved (s : Session n) (i : Fin n) (t : SessionThread) (calls : List (SessionCall n)) :
    Session n :=
  { threads := Function.update s.threads i t, calls := calls }

theorem stage_le_two (t : SessionThread) : t.stage ≤ 2 := by
  unfold SessionThread.stage
  split <;> omega

theorem moved_self : (moved s i t calls).threads i = t := Function.update_self _ _ _

theorem moved_other {j : Fin n} (hj : j ≠ i) :
    (moved s i t calls).threads j = s.threads j :=
  Function.update_of_ne hj _ _

/-- A thread moves on in the workload it is in, with another transaction or the same. -/
theorem Serves.move (h : c.Serves engine plan zero s) {db : Option ℕ}
    (hworkload : t.workload = (s.threads i).workload) (hstage : (s.threads i).stage ≤ t.stage)
    (hzero : i = zero → (s.threads i).opened = true ∧ t.opened = true)
    (htransaction : if t.inTransaction plan then ∃ client ∈ c.clients, db = some client
      else db = none)
    (hcalled : i = zero → engine = .ucset → t.HasCalled plan zero → (c.client zero).isSome) :
    (c.setTransaction i db).Serves engine plan zero (moved s i t calls) := by
  have hopened : ((moved s i t calls).threads zero).opened = (s.threads zero).opened := by
    by_cases hi : zero = i
    · rw [hi, moved_self, (hzero hi.symm).1, (hzero hi.symm).2]
    · rw [moved_other hi]
  have hworkloads : ∀ j, ((moved s i t calls).threads j).workload = (s.threads j).workload := by
    intro j
    by_cases hj : j = i
    · rw [hj, moved_self, hworkload]
    · rw [moved_other hj]
  have hstages : ∀ j, (s.threads j).stage ≤ ((moved s i t calls).threads j).stage := by
    intro j
    by_cases hj : j = i
    · rw [hj, moved_self]
      exact hstage
    · rw [moved_other hj]
  -- who is inside anew has no client yet, unless it is thread 0 of an engine that keeps it
  have hinside : ∀ j, (moved s i t calls).Inside zero j → s.Inside zero j ∨
      (s.threads j).stage = 0 := by
    intro j hj
    have hle := hstages j
    rw [hj.1] at hle
    by_cases hone : (s.threads j).stage = 1
    · exact .inl ⟨hone, by rw [← hworkloads j, ← hworkloads zero]; exact hj.2.1,
        hopened ▸ hj.2.2⟩
    · exact .inr (by omega)
  have hnew : ∀ j client, engine = .flightClient → (moved s i t calls).Inside zero j →
      c.client j = some client → s.Inside zero j := by
    intro j client hflight hj hclient
    rcases hinside j hj with hin | hout
    · exact hin
    · rw [h.fresh j (.inr (by rw [hflight]; decide)) hout] at hclient
      cases hclient
  refine ⟨h.nodup, h.alive, h.made, fun ho => h.opened (hopened ▸ ho),
    fun hc => h.closed (hopened ▸ hc), fun j client hj hclient => ?_, fun j hj hs => ?_,
    fun j => ?_, ?_, fun hflight j client hj hclient => ?_,
    fun hflight j k client hj hk hne hclient => ?_, fun hucset hhas => ?_, fun hucset => ?_⟩
  · by_cases hj0 : j = zero
    · exact h.client j client (.inr hj0) hclient
    · rcases hinside j (hj.resolve_right hj0) with hin | hout
      · exact h.client j client (.inl hin) hclient
      · have hnone := h.fresh j (.inl hj0) hout
        rw [show c.client j = some client from hclient] at hnone
        cases hnone
  · have hle := hstages j
    exact h.fresh j hj (by omega)
  · by_cases hj : j = i
    · subst hj
      rw [moved_self]
      simpa [setTransaction] using htransaction
    · rw [moved_other hj]
      simpa [setTransaction, hj] using h.transaction j
  · have hindex := h.index
    by_cases hflight : engine = .flightClient
    · rw [if_pos hflight] at hindex ⊢
      refine Nat.le_trans hindex (tally_le_tally fun j hj => ?_)
      have hj : Served s zero c j := hj
      have hle := hstages j
      have htwo := stage_le_two ((moved s i t calls).threads j)
      have hgoal : Served (moved s i t calls) zero (c.setTransaction i db) j := by
        rcases hj with ⟨hj, hsome⟩ | hgone
        · by_cases hone : ((moved s i t calls).threads j).stage = 1
          · refine .inl ⟨⟨hone, ?_, hopened.symm ▸ hj.2.2⟩, hsome⟩
            rw [hworkloads, hworkloads]
            exact hj.2.1
          · right
            have hstagej := hj.1
            have hsame := hj.2.1
            rw [Session.Gone, SessionThread.synced, hworkloads, hworkloads]
            omega
        · right
          rw [Session.Gone, SessionThread.synced] at hgone ⊢
          rw [hworkloads, hworkloads]
          omega
      exact hgoal
    · rw [if_neg hflight] at hindex ⊢
      exact hindex
  · exact h.taken hflight j client (hnew j client hflight hj hclient) hclient
  · intro hclient'
    exact h.distinct hflight j k client (hnew j client hflight hj hclient)
      (hnew k client hflight hk hclient') hne hclient hclient'
  · by_cases hi : i = zero
    · subst hi
      rw [moved_self] at hhas
      exact hcalled rfl hucset hhas
    · rw [moved_other (Ne.symm hi)] at hhas
      exact h.kept hucset hhas
  · obtain ⟨hlength, hone, hnone⟩ := h.single hucset
    refine ⟨hlength, hone, fun hw hc hp => ?_⟩
    by_cases hi : i = zero
    · rw [hopened, ← hi, (hzero hi).1] at hc
      cases hc
    · rw [moved_other (Ne.symm hi)] at hw hc hp
      exact hnone hw hc hp

/-- Where nobody is inside only the clients themselves and thread 0 count. -/
theorem Serves.of_outside (hout : ∀ i, ¬s.Inside zero i) (hindex : c.clientIndex = 0)
    (nodup : c.clients.Nodup) (alive : c.alive = c.clients) (made : ∀ db ∈ c.clients, db < c.made)
    (opened : (s.threads zero).opened = true → c.clients.length = clientsCount engine n)
    (closed : (s.threads zero).opened = false → engine ≠ .ucset → c.clients = [])
    (client : ∀ db, c.client zero = some db → db ∈ c.clients)
    (fresh : ∀ i, i ≠ zero ∨ engine ≠ .ucset → (s.threads i).stage = 0 → c.client i = none)
    (transaction : ∀ i, (s.threads i).inTransaction plan = false ∧ c.transaction i = none)
    (kept : engine = .ucset → (s.threads zero).HasCalled plan zero → (c.client zero).isSome)
    (single : engine = .ucset → c.made = c.clients.length ∧ c.made ≤ 1 ∧
      ((s.threads zero).workload = 0 → (s.threads zero).opened = false →
        (s.threads zero).point ≠ .leaving → c.made = 0)) :
    c.Serves engine plan zero s where
  nodup := nodup
  alive := alive
  made := made
  opened := opened
  closed hc := ⟨hindex, closed hc⟩
  client i db hi hclient := by
    rcases hi with hi | rfl
    · exact absurd hi (hout i)
    · exact client db hclient
  fresh := fresh
  transaction i := by
    rw [if_neg (by simp [(transaction i).1])]
    exact (transaction i).2
  index := by
    rw [hindex]
    split
    · exact Nat.zero_le _
    · rfl
  taken _ i _ hi := absurd hi (hout i)
  distinct _ i _ _ hi := absurd hi (hout i)
  kept := kept
  single := single

/-- Where thread 0 is not between the fences no transaction is left. -/
theorem Serves.no_transaction (h : c.Serves engine plan zero s) (hs : s.Apart plan)
    (hzero : (s.threads zero).point ≠ .openFence ∧ (s.threads zero).stage ≠ 1) (i : Fin n) :
    (s.threads i).inTransaction plan = false ∧ c.transaction i = none := by
  have hlive : (s.threads i).inTransaction plan = false := hs.none_live hzero i
  have htransaction := h.transaction i
  rw [if_neg (by simp [hlive])] at htransaction
  exact ⟨hlive, htransaction⟩

/-- No thread is inside a workload that thread 0 is about to open the database for. -/
theorem not_inside_of_opening (hs : s.Apart plan) (hp : (s.threads zero).point = .opening) :
    ¬((s.threads i).stage = 1 ∧ (s.threads i).workload = (s.threads zero).workload) := by
  rintro ⟨hstage, hworkload⟩
  have hle := hs.synced_le i zero
  have hzero : (s.threads zero).stage = 0 ∧ (s.threads zero).atFence = false := by
    simp [SessionThread.stage, SessionThread.atFence, hp]
  simp only [FenceUser.arrived, Session.fenceUser, SessionThread.synced, hstage, hworkload,
    hzero.1, hzero.2] at hle
  simp at hle

theorem Serves.openDb (h : c.Serves engine plan zero s) (hs : s.Apart plan)
    (hp : (s.threads zero).point = .opening) :
    (c.openDb engine zero).Serves engine plan zero
      (moved s zero { s.threads zero with point := .openFence } calls) := by
  have hshut : (s.threads zero).opened = false := by simp [SessionThread.opened, hp]
  have hstageZero : (s.threads zero).stage = 0 := by simp [SessionThread.stage, hp]
  obtain ⟨hindex, hempty⟩ := h.closed hshut
  have hout : ∀ i, ¬(moved s zero { s.threads zero with point := .openFence } calls).Inside
      zero i := by
    intro i hin
    by_cases hi : i = zero
    · have hstage := hin.1
      simp [hi, moved_self, SessionThread.stage] at hstage
    · have hsame := hin.2.1
      have hstage := hin.1
      rw [moved_other hi] at hstage hsame
      rw [moved_self] at hsame
      exact not_inside_of_opening hs hp ⟨hstage, hsame⟩
  have hfresh : ∀ i, i ≠ zero ∨ engine ≠ .ucset →
      ((moved s zero { s.threads zero with point := .openFence } calls).threads i).stage = 0 →
      c.client i = none := by
    intro i hi hstage
    by_cases hiz : i = zero
    · subst hiz
      exact h.fresh i hi hstageZero
    · rw [moved_other hiz] at hstage
      exact h.fresh i hi hstage
  have htransaction : ∀ i, ((moved s zero { s.threads zero with point := .openFence }
      calls).threads i).inTransaction plan = false ∧ c.transaction i = none := by
    intro i
    have hnone := h.no_transaction hs (by simp [SessionThread.stage, hp]) i
    by_cases hi : i = zero
    · subst hi
      exact ⟨by rw [moved_self]; rfl, hnone.2⟩
    · rwa [moved_other hi]
  have hkept : engine = .ucset → 0 < (s.threads zero).workload → (c.client zero).isSome :=
    fun hucset hpos => h.kept hucset (.inl hpos)
  have hcalled : ((moved s zero { s.threads zero with point := .openFence }
      calls).threads zero).HasCalled plan zero → 0 < (s.threads zero).workload := by
    rw [moved_self]
    rintro (hpos | hnever)
    · exact hpos
    · exact absurd hnever id
  have hopen : ((moved s zero { s.threads zero with point := .openFence }
      calls).threads zero).opened = true := by
    rw [moved_self]
    rfl
  cases hclient : c.client zero with
  | some db =>
    have hucset : engine = .ucset := by
      by_contra hne
      rw [h.fresh zero (.inr hne) hstageZero] at hclient
      cases hclient
    obtain ⟨hlength, hone, _⟩ := h.single hucset
    have hmem := h.client zero db (.inr rfl) hclient
    have hpos := List.length_pos_of_mem hmem
    have hsame : c.openDb engine zero = c := by simp [UStoreClients.openDb, hclient]
    rw [hsame]
    refine .of_outside hout hindex h.nodup h.alive h.made (fun _ => ?_) (fun hc => ?_)
      (fun db => h.client zero db (.inr rfl)) hfresh htransaction
      (fun hu hcall => hkept hu (hcalled hcall)) fun _ => ⟨hlength, hone, fun _ hc => ?_⟩
    · rw [clientsCount, if_neg (by simp [hucset])]
      omega
    · rw [hopen] at hc
      cases hc
    · rw [hopen] at hc
      cases hc
  | none =>
    have hfirst : engine = .ucset → c.made = 0 := by
      intro hucset
      refine (h.single hucset).2.2 ?_ hshut (by simp [hp])
      by_contra hne
      have hsome := hkept hucset (Nat.pos_of_ne_zero hne)
      simp [hclient] at hsome
    have hclients : c.clients = [] := by
      by_cases hucset : engine = .ucset
      · exact List.length_eq_zero_iff.mp ((h.single hucset).1 ▸ hfirst hucset)
      · exact hempty hucset
    have hopened : c.openDb engine zero =
        { c with
          clients := List.range' c.made (clientsCount engine n)
          made := c.made + clientsCount engine n
          alive := List.range' c.made (clientsCount engine n) } := by
      simp [UStoreClients.openDb, hclient, h.alive, hclients]
    rw [hopened]
    refine .of_outside hout hindex (List.nodup_range') rfl (fun db hdb => ?_)
      (fun _ => List.length_range') (fun hc => ?_) (fun db hdb => ?_) hfresh htransaction
      (fun hu hcall => ?_) fun hu => ⟨?_, ?_, fun _ hc => ?_⟩
    · have hrange := List.mem_range'_1.mp hdb
      exact hrange.2
    · rw [hopen] at hc
      cases hc
    · rw [show c.client zero = some db from hdb] at hclient
      cases hclient
    · have hsome := hkept hu (hcalled hcall)
      simp [hclient] at hsome
    · rw [List.length_range', hfirst hu, Nat.zero_add]
    · rw [hfirst hu, clientsCount, if_neg (by simp [hu])]
    · rw [hopen] at hc
      cases hc

theorem Serves.openFails (h : c.Serves engine plan zero s) (hs : s.Apart plan)
    (hp : (s.threads zero).point = .opening) :
    c.Serves engine plan zero
      (moved s zero { s.threads zero with point := .openFailed } calls) := by
  have hshut : (s.threads zero).opened = false := by simp [SessionThread.opened, hp]
  have hstageZero : (s.threads zero).stage = 0 := by simp [SessionThread.stage, hp]
  obtain ⟨hindex, hempty⟩ := h.closed hshut
  have hzero : (moved s zero { s.threads zero with point := .openFailed } calls).threads zero =
      { s.threads zero with point := .openFailed } := moved_self
  refine .of_outside (fun i hin => ?_) hindex h.nodup h.alive h.made (fun ho => ?_)
    (fun _ => hempty) (fun db => h.client zero db (.inr rfl)) (fun i hi hstage => ?_)
    (fun i => ?_) (fun hu hcall => ?_) fun hu => ?_
  · have hopened := hin.2.2
    rw [hzero] at hopened
    cases hopened
  · rw [hzero] at ho
    cases ho
  · by_cases hiz : i = zero
    · subst hiz
      exact h.fresh i hi hstageZero
    · rw [moved_other hiz] at hstage
      exact h.fresh i hi hstage
  · have hnone := h.no_transaction hs (by simp [SessionThread.stage, hp]) i
    by_cases hi : i = zero
    · subst hi
      exact ⟨by rw [moved_self]; rfl, hnone.2⟩
    · rwa [moved_other hi]
  · rw [hzero] at hcall
    rcases hcall with hpos | hnever
    · exact h.kept hu (.inl hpos)
    · exact absurd hnever id
  · obtain ⟨hlength, hone, hfirst⟩ := h.single hu
    refine ⟨hlength, hone, fun hw _ _ => hfirst ?_ hshut (by simp [hp])⟩
    rw [hzero] at hw
    exact hw

/-- What `close` leaves behind. -/
theorem Serves.close (h : c.Serves engine plan zero s) (hs : s.Apart plan)
    (hp : (s.threads zero).point = .closing) : ∃ c', follow engine zero c .close = some c' ∧
    c'.Serves engine plan zero
      (moved s zero { s.threads zero with point := .leaving } calls) := by
  have hopened : (s.threads zero).opened = true := by simp [SessionThread.opened, hp]
  have hzero : (moved s zero { s.threads zero with point := .leaving } calls).threads zero =
      { s.threads zero with point := .leaving } := moved_self
  have hout : ∀ i, ¬(moved s zero { s.threads zero with point := .leaving } calls).Inside
      zero i := by
    intro i hin
    have hopen := hin.2.2
    rw [hzero] at hopen
    cases hopen
  have hstages : ∀ i, ((moved s zero { s.threads zero with point := .leaving }
      calls).threads i).stage = 0 → i ≠ zero ∧ (s.threads i).stage = 0 := by
    intro i hstage
    by_cases hi : i = zero
    · simp [hi, hzero, SessionThread.stage] at hstage
    · rw [moved_other hi] at hstage
      exact ⟨hi, hstage⟩
  have htransaction : ∀ i, ((moved s zero { s.threads zero with point := .leaving }
      calls).threads i).inTransaction plan = false ∧ c.transaction i = none := by
    intro i
    have hnone := h.no_transaction hs (by simp [SessionThread.stage, hp]) i
    by_cases hi : i = zero
    · subst hi
      exact ⟨by rw [moved_self]; rfl, hnone.2⟩
    · rwa [moved_other hi]
  by_cases hucset : engine = .ucset
  · refine ⟨{ c with clientIndex := 0 }, by simp [follow, hucset], ?_⟩
    refine .of_outside hout rfl h.nodup h.alive h.made (fun ho => ?_)
      (fun _ hne => absurd hucset hne) (fun db => h.client zero db (.inr rfl))
      (fun i hi hstage => h.fresh i hi (hstages i hstage).2) htransaction
      (fun _ _ => h.kept hucset ?_) fun _ => ?_
    · rw [hzero] at ho
      cases ho
    · right
      rw [hp]
      trivial
    · obtain ⟨hlength, hone, _⟩ := h.single hucset
      refine ⟨hlength, hone, fun _ _ hne => ?_⟩
      rw [hzero] at hne
      exact absurd rfl hne
  · have hfree : follow engine zero c .close =
        some { UStoreClients.setClient { c with clientIndex := 0 } zero none with
          clients := [], alive := [] } := by
      simp [follow, hucset, UStoreClients.free, h.alive, h.nodup, UStoreClients.setClient]
    refine ⟨_, hfree, ?_⟩
    refine .of_outside hout rfl List.nodup_nil rfl (by simp) (fun ho => ?_) (fun _ _ => rfl)
      (fun db hdb => ?_) (fun i hi hstage => ?_) htransaction (fun hu => absurd hu hucset)
      fun hu => absurd hu hucset
    · rw [hzero] at ho
      cases ho
    · simp [UStoreClients.setClient] at hdb
    · obtain ⟨hiz, hold⟩ := hstages i hstage
      simpa [UStoreClients.setClient, hiz] using h.fresh i hi hold

/-- The end of a thread for the workload: that of thread 0 keeps what is local to it. -/
theorem Serves.finishZero (h : c.Serves engine plan zero s) (hs : s.Apart plan)
    (hp : (s.threads zero).point = .leaving) : c.Serves engine plan zero
      (moved s zero { workload := (s.threads zero).workload + 1, point := .opening } calls) := by
  have hshut : (s.threads zero).opened = false := by simp [SessionThread.opened, hp]
  obtain ⟨hindex, hempty⟩ := h.closed hshut
  have hzero : (moved s zero { workload := (s.threads zero).workload + 1, point := .opening }
      calls).threads zero = { workload := (s.threads zero).workload + 1, point := .opening } :=
    moved_self
  refine .of_outside (fun i hin => ?_) hindex h.nodup h.alive h.made (fun ho => ?_)
    (fun _ => hempty) (fun db => h.client zero db (.inr rfl)) (fun i hi hstage => ?_)
    (fun i => ?_) (fun hu _ => ?_) fun hu => ?_
  · have hopened := hin.2.2
    rw [hzero] at hopened
    cases hopened
  · rw [hzero] at ho
    cases ho
  · by_cases hiz : i = zero
    · subst hiz
      have hnone := hempty (hi.resolve_left (absurd rfl))
      cases hclient : c.client i with
      | none => rfl
      | some db =>
        have hmem := h.client i db (.inr rfl) hclient
        rw [hnone] at hmem
        cases hmem
    · rw [moved_other hiz] at hstage
      exact h.fresh i hi hstage
  · have hnone := h.no_transaction hs (by simp [SessionThread.stage, hp]) i
    by_cases hi : i = zero
    · subst hi
      exact ⟨by rw [moved_self]; rfl, hnone.2⟩
    · rwa [moved_other hi]
  · refine h.kept hu (.inr ?_)
    rw [hp]
    trivial
  · obtain ⟨hlength, hone, _⟩ := h.single hu
    refine ⟨hlength, hone, fun hw => ?_⟩
    rw [hzero] at hw
    cases hw

theorem Serves.finish (h : c.Serves engine plan zero s) (hi : i ≠ zero)
    (hp : (s.threads i).point = .leaving) : (c.setClient i none).Serves engine plan zero
      (moved s i { workload := (s.threads i).workload + 1, point := .opening } calls) := by
  have hzero : (moved s i { workload := (s.threads i).workload + 1, point := .opening }
      calls).threads zero = s.threads zero := moved_other (Ne.symm hi)
  have hself : (moved s i { workload := (s.threads i).workload + 1, point := .opening }
      calls).threads i = { workload := (s.threads i).workload + 1, point := .opening } := moved_self
  have hclient : ∀ j, j ≠ i → (c.setClient i none).client j = c.client j :=
    fun j hj => Function.update_of_ne hj _ _
  have hinside : ∀ j, (moved s i { workload := (s.threads i).workload + 1, point := .opening }
      calls).Inside zero j → j ≠ i ∧ s.Inside zero j := by
    intro j hj
    have hji : j ≠ i := by
      intro heq
      have hstage := hj.1
      rw [heq, hself] at hstage
      cases hstage
    rw [Session.Inside, hzero, moved_other hji] at hj
    exact ⟨hji, hj⟩
  refine ⟨h.nodup, h.alive, h.made, fun ho => h.opened (hzero ▸ ho),
    fun hc => h.closed (hzero ▸ hc), fun j db hj hdb => ?_, fun j hj hstage => ?_, fun j => ?_, ?_,
    fun hflight j db hj hdb => ?_, fun hflight j k db hj hk hne hdb hdb' => ?_,
    fun hu hcall => ?_, fun hu => ?_⟩
  · have hji : j ≠ i := by
      rcases hj with hj | rfl
      · exact (hinside j hj).1
      · exact Ne.symm hi
    rw [hclient j hji] at hdb
    exact h.client j db (hj.imp_left fun hin => (hinside j hin).2) hdb
  · by_cases hji : j = i
    · rw [hji]
      exact Function.update_self _ _ _
    · rw [moved_other hji] at hstage
      rw [hclient j hji]
      exact h.fresh j hj hstage
  · have htransaction := h.transaction j
    by_cases hji : j = i
    · subst hji
      rw [if_neg (by simp [SessionThread.inTransaction, hp])] at htransaction
      rw [hself, if_neg (by simp [SessionThread.inTransaction])]
      exact htransaction
    · rw [moved_other hji]
      exact htransaction
  · have hindex := h.index
    by_cases hflight : engine = .flightClient
    · rw [if_pos hflight] at hindex ⊢
      refine Nat.le_trans hindex (tally_le_tally fun j hj => ?_)
      have hj : Served s zero c j := hj
      by_cases hji : j = i
      · subst hji
        right
        rcases hj with ⟨hin, _⟩ | hgone
        · have hstage := hin.1
          simp [SessionThread.stage, hp] at hstage
        · rw [Session.Gone, SessionThread.synced] at hgone
          simp only [SessionThread.stage, hp] at hgone
          rw [Session.Gone, hzero, id, hself, SessionThread.synced]
          simp only [SessionThread.stage]
          omega
      · rcases hj with ⟨hin, hsome⟩ | hgone
        · refine .inl ⟨?_, ?_⟩
          · rw [Session.Inside, hzero, id, moved_other hji]
            exact hin
          · rw [id, hclient j hji]
            exact hsome
        · right
          rw [Session.Gone, hzero, id, moved_other hji]
          exact hgone
    · rw [if_neg hflight] at hindex ⊢
      exact hindex
  · obtain ⟨hji, hin⟩ := hinside j hj
    rw [hclient j hji] at hdb
    exact h.taken hflight j db hin hdb
  · obtain ⟨hji, hinj⟩ := hinside j hj
    obtain ⟨hki, hink⟩ := hinside k hk
    rw [hclient j hji] at hdb
    rw [hclient k hki] at hdb'
    exact h.distinct hflight j k db hinj hink hne hdb hdb'
  · rw [hclient zero (Ne.symm hi)]
    exact h.kept hu (hzero ▸ hcall)
  · obtain ⟨hlength, hone, hfirst⟩ := h.single hu
    exact ⟨hlength, hone, fun hw hc hne => hfirst (hzero ▸ hw) (hzero ▸ hc) (hzero ▸ hne)⟩

theorem Serves.moveSame (h : c.Serves engine plan zero s)
    (hworkload : t.workload = (s.threads i).workload) (hstage : (s.threads i).stage ≤ t.stage)
    (hzero : i = zero → (s.threads i).opened = true ∧ t.opened = true)
    (htransaction : t.inTransaction plan = (s.threads i).inTransaction plan)
    (hcalled : i = zero → engine = .ucset → t.HasCalled plan zero → (c.client zero).isSome) :
    c.Serves engine plan zero (moved s i t calls) := by
  have hsame : c.setTransaction i (c.transaction i) = c := by
    simp only [UStoreClients.setTransaction, Function.update_eq_self]
  rw [← hsame]
  exact h.move hworkload hstage hzero (by rw [htransaction]; exact h.transaction i) hcalled

theorem callWith_alive (h : c.Serves engine plan zero s) {db : ℕ} (hdb : db ∈ c.clients) :
    c.callWith (some db) = some c := by
  rw [UStoreClients.callWith, Option.bind_some, h.alive, if_pos hdb]

/-- A call that maps a client first. -/
theorem Serves.callMapped (h : c.Serves engine plan zero s) (hs : s.Apart plan)
    (hstage : (s.threads i).stage = 1) (hpoint : (s.threads i).point ≠ .closeFence) :
    ∃ c' db, c.mapClient engine i = some c' ∧ c'.callWith (c'.client i) = some c' ∧
      c'.Serves engine plan zero s ∧ c'.client i = some db ∧ db ∈ c'.clients ∧
      c'.transaction = c.transaction := by
  obtain ⟨c', hmap, hserves, ⟨db, hdb, hclient⟩, htransaction⟩ := h.mapClient hs hstage hpoint
  refine ⟨c', db, hmap, ?_, hserves, hclient, hdb, htransaction⟩
  rw [hclient]
  exact callWith_alive hserves hdb

theorem Serves.use (h : c.Serves engine plan zero s) (hs : s.Apart plan) {left : ℕ}
    (hp : (s.threads i).point = .operating (left + 1))
    (hworkload : t.workload = (s.threads i).workload) (hstage : t.stage = 1)
    (hopened : t.opened = true) (htransaction : t.inTransaction plan = plan.transactional) :
    ∃ c', follow engine zero c (.use i) = some c' ∧
      c'.Serves engine plan zero (moved s i t calls) := by
  have hold : (s.threads i).inTransaction plan = plan.transactional := by
    simp [SessionThread.inTransaction, hp]
  have hstages : (s.threads i).stage ≤ t.stage := by
    rw [hstage]
    simp [SessionThread.stage, hp]
  have hopenedOld : (s.threads i).opened = true := by simp [SessionThread.opened, hp]
  have hown := h.transaction i
  by_cases htransactional : plan.transactional = true
  · rw [if_pos (hold.trans htransactional)] at hown
    obtain ⟨db, hdb, hdb'⟩ := hown
    refine ⟨c, by simp only [follow, hdb', callWith_alive h hdb], h.moveSame hworkload hstages
      (fun _ => ⟨hopenedOld, hopened⟩) (htransaction.trans hold.symm) fun hz hu _ => ?_⟩
    subst hz
    refine h.kept hu (.inr ?_)
    rw [hp]
    exact .inl htransactional
  · rw [if_neg fun heq => htransactional (hold.symm.trans heq)] at hown
    obtain ⟨c', db, hmap, hcall, hserves, hclient, _, _⟩ := h.callMapped hs (i := i)
      (by simp [SessionThread.stage, hp]) (by simp [hp])
    refine ⟨c', by simp only [follow, hown, hmap, Option.bind_some, hcall],
      hserves.moveSame hworkload hstages (fun _ => ⟨hopenedOld, hopened⟩)
        (htransaction.trans hold.symm) fun hz _ _ => ?_⟩
    rw [← hz, hclient]
    rfl

theorem Serves.commit (h : c.Serves engine plan zero s)
    (hp : (s.threads i).point = .unwinding ∨ (s.threads i).point = .committing)
    (htransactional : plan.transactional = true)
    (hworkload : t.workload = (s.threads i).workload) (hstage : t.stage = 1)
    (hopened : t.opened = true) (htransaction : t.inTransaction plan = false) :
    ∃ c', follow engine zero c (.commit i) = some c' ∧
      c'.Serves engine plan zero (moved s i t calls) := by
  have hold : (s.threads i).inTransaction plan = true ∧ (s.threads i).stage = 1 ∧
      (s.threads i).opened = true ∧ (s.threads i).HasCalled plan i := by
    unfold SessionThread.inTransaction SessionThread.stage SessionThread.opened
      SessionThread.HasCalled
    rcases hp with hp | hp <;> simp [hp, htransactional]
  have hown := h.transaction i
  rw [if_pos hold.1] at hown
  obtain ⟨db, hdb, hdb'⟩ := hown
  refine ⟨c.setTransaction i none, ?_, h.move hworkload (by omega)
    (fun _ => ⟨hold.2.2.1, hopened⟩) (by rw [if_neg (by simp [htransaction])])
    fun hz hu _ => ?_⟩
  · rw [follow, hdb', callWith_alive h hdb]
    rfl
  · subst hz
    exact h.kept hu hold.2.2.2

/-- The clients follow the calls of every action. -/
theorem Serves.follows (h : c.Serves engine plan zero s) (hs : s.Apart plan)
    (hzero : zero.val = 0)
    (hops : engine = .ucset → ∀ k < plan.workloads, 0 < plan.operations k zero)
    (hact : SessionAct plan i (s.threads i) t calls) :
    ∃ c', run (follow engine zero) c calls = some c' ∧
      c'.Serves engine plan zero (moved s i t (s.calls ++ calls)) := by
  have hother : i.val ≠ 0 → i ≠ zero := fun hne heq => hne (heq ▸ hzero)
  have hself : i.val = 0 → i = zero := fun heq => Fin.ext (heq.trans hzero.symm)
  have hone : ∀ {call : SessionCall n} {s' : Session n},
      (∃ c', follow engine zero c call = some c' ∧ c'.Serves engine plan zero s') →
        ∃ c', run (follow engine zero) c [call] = some c' ∧ c'.Serves engine plan zero s' := by
    rintro call s' ⟨c', hcall, hserves⟩
    exact ⟨c', by simp [run, hcall], hserves⟩
  have hstay : ∀ {point : SessionPoint}, (s.threads i).stage ≤
      ({ s.threads i with point := point } : SessionThread).stage →
      (i = zero → (s.threads i).opened = true ∧
        ({ s.threads i with point := point } : SessionThread).opened = true) →
      ({ s.threads i with point := point } : SessionThread).inTransaction plan =
        (s.threads i).inTransaction plan →
      (({ s.threads i with point := point } : SessionThread).HasCalled plan i →
        (s.threads i).HasCalled plan i) →
      ∀ calls, c.Serves engine plan zero (moved s i { s.threads i with point := point } calls) := by
    intro point hstage hopened htransaction hcalled calls
    refine h.moveSame rfl hstage hopened htransaction fun hz hu hhas => ?_
    subst hz
    exact h.kept hu (hcalled hhas)
  cases hact with
  | openDb hp _ hi =>
    obtain rfl := hself hi
    exact hone ⟨_, rfl, h.openDb hs hp⟩
  | openFails hp _ hi =>
    obtain rfl := hself hi
    exact hone ⟨_, rfl, h.openFails hs hp⟩
  | skipOpen hp _ hi =>
    refine ⟨c, rfl, hstay ?_ (fun hz => absurd hz (hother hi)) ?_ ?_ _⟩
    · simp [SessionThread.stage, hp]
    · simp [SessionThread.inTransaction, hp]
    · simp [SessionThread.HasCalled, hp]
  | begin hp | passZero hp =>
    refine ⟨c, rfl, hstay ?_ (fun _ => ?_) ?_ ?_ _⟩
    · simp [SessionThread.stage, hp]
    · simp [SessionThread.opened, hp]
    · simp [SessionThread.inTransaction, hp]
    · simp [SessionThread.HasCalled, hp]
  | beginPlain hp htransactional =>
    refine ⟨c, rfl, hstay ?_ (fun _ => ?_) ?_ ?_ _⟩
    · simp [SessionThread.stage, hp]
    · simp [SessionThread.opened, hp]
    · simp [SessionThread.inTransaction, hp, htransactional]
    · simp [SessionThread.HasCalled, hp, htransactional]
  | operated hp htransactional =>
    refine ⟨c, rfl, hstay ?_ (fun _ => ?_) ?_ ?_ _⟩
    · simp [SessionThread.stage, hp]
    · simp [SessionThread.opened, hp]
    · simp [SessionThread.inTransaction, hp]
    · simp [SessionThread.HasCalled, hp, htransactional]
  | operatedPlain hp htransactional =>
    refine ⟨c, rfl, h.moveSame rfl ?_ (fun _ => ?_) ?_ fun hz hu _ => ?_⟩
    · simp [SessionThread.stage, hp]
    · simp [SessionThread.opened, hp]
    · simp [SessionThread.inTransaction, hp, htransactional]
    · subst hz
      have hpos := hops hu _ ((hs.locals i).workload_lt (by simp [hp]))
      refine h.kept hu (.inr ?_)
      rw [hp]
      exact .inr hpos
  | pass hp hi =>
    refine ⟨c, rfl, hstay ?_ (fun hz => absurd hz (hother hi)) ?_ ?_ _⟩
    · simp [SessionThread.stage, hp]
    · simp [SessionThread.inTransaction, hp]
    · simp [SessionThread.HasCalled, hp]
  | unwindPlain hp =>
    refine ⟨c, rfl, hstay ?_ (fun _ => ?_) ?_ ?_ _⟩
    · simp [SessionThread.stage, hp]
    · simp [SessionThread.opened, hp]
    · simp_all [SessionThread.inTransaction]
    · simp [SessionThread.HasCalled, hp]
  | create hp =>
    obtain ⟨c', db, hmap, hcall, hserves, hclient, hdb, _⟩ := h.callMapped hs (i := i)
      (by simp [SessionThread.stage, hp]) (by simp [hp])
    have htransactional := (hs.locals i).transactional (.inl hp)
    refine hone ⟨c'.setTransaction i (c'.client i), by simp [follow, hmap, hcall],
      hserves.move rfl ?_ (fun _ => ?_) ?_ fun hz _ _ => ?_⟩
    · simp [SessionThread.stage, hp]
    · simp [SessionThread.opened, hp]
    · simp [SessionThread.inTransaction, htransactional, hclient, hdb]
    · rw [← hz, hclient]
      rfl
  | createFails hp =>
    obtain ⟨c', db, hmap, hcall, hserves, hclient, _, _⟩ := h.callMapped hs (i := i)
      (by simp [SessionThread.stage, hp]) (by simp [hp])
    refine hone ⟨c', by simp [follow, hmap, hcall], hserves.moveSame rfl ?_ (fun _ => ?_) ?_
      fun hz _ _ => ?_⟩
    · simp [SessionThread.stage, hp]
    · simp [SessionThread.opened, hp]
    · simp [SessionThread.inTransaction, hp]
    · rw [← hz, hclient]
      rfl
  | operate hp | operateThrows hp => exact hone (h.use hs hp rfl rfl rfl rfl)
  | unwind hp htransactional => exact hone (h.commit (.inl hp) htransactional rfl rfl rfl rfl)
  | commit hp =>
    have htransactional := (hs.locals i).transactional (.inr hp)
    exact hone (h.commit (.inr hp) htransactional rfl rfl rfl rfl)
  | close hp =>
    obtain rfl := hself ((hs.locals i).zero (.inr hp))
    exact hone (h.close hs hp)
  | leave hp =>
    by_cases hi : i = zero
    · subst hi
      exact hone ⟨c, by simp [follow], h.finishZero hs hp⟩
    · exact hone ⟨c.setClient i none, by simp [follow, hi], h.finish hi hp⟩

end

theorem start_serves : (start n).Serves engine plan zero (Session.start n) := by
  refine .of_outside (fun i hin => ?_) rfl List.nodup_nil rfl (by simp [start])
    (fun ho => ?_) (fun _ _ => rfl) (by simp [start]) (fun _ _ _ => rfl) (fun _ => ⟨rfl, rfl⟩)
    (fun _ hcall => ?_) fun _ => ⟨rfl, Nat.zero_le _, fun _ _ _ => rfl⟩
  · cases hin.2.2
  · cases ho
  · rcases hcall with hpos | hnever
    · exact absurd hpos (Nat.lt_irrefl 0)
    · exact absurd hnever id

/-- However the threads interleave, while `Fenced.Survives` holds of their steps, no thread
maps a client that is not there or calls with a database that has been freed, and what is
not freed is in use. The threads of a flight client have a client each, and the database of
`ucset` is initialised once for all workloads. -/
theorem clients_served {rounds : ℕ} {f : Fenced n (Session n)} (hzero : zero.val = 0)
    (hops : engine = .ucset → ∀ k < plan.workloads, 0 < plan.operations k zero)
    (h : Session.FencedReaches plan rounds f) :
    ∃ c, run (follow engine zero) (start n) f.user.calls = some c ∧ c.alive = c.clients ∧
      (engine = .flightClient → ∀ i j db, f.user.Inside zero i → f.user.Inside zero j → i ≠ j →
        c.client i = some db → c.client j ≠ some db) ∧
      (engine = .ucset → c.made ≤ 1) ∧
      (engine ≠ .ucset → (f.user.threads zero).opened = false → c.alive = []) := by
  obtain ⟨c, hrun, hserves⟩ := Session.reaches_followed (follow engine zero) (start n)
    (fun s c => c.Serves engine plan zero s) start_serves (fun s c i t calls hreach hc hact =>
      hc.follows (Session.reaches_apart hreach) hzero hops hact) h.ideal
  refine ⟨c, hrun, hserves.alive, hserves.distinct, fun hu => (hserves.single hu).2.1,
    fun hne hshut => ?_⟩
  rw [hserves.alive]
  exact (hserves.closed hshut).2 hne

theorem bothThrough_clients_served : ∃ f c,
    run (Fenced.step (Session.fenceUser Session.twoWorkloads) 4) (Fenced.start (Session.start 2))
      Session.bothThrough = some f ∧
    run (follow .flightClient 0) (start 2) f.user.calls = some c ∧ c.alive = [] := by
  have hrun : ∃ f, run (Fenced.step (Session.fenceUser Session.twoWorkloads) 4)
      (Fenced.start (Session.start 2)) Session.bothThrough = some f ∧
      (f.user.threads 0).point = .opening := ⟨_, rfl, rfl⟩
  obtain ⟨f, hf, hp⟩ := hrun
  have hzero : (0 : Fin 2).val = 0 := rfl
  have hops : UStoreEngine.flightClient = .ucset → ∀ k < Session.twoWorkloads.workloads,
      0 < Session.twoWorkloads.operations k 0 := by simp
  obtain ⟨c, hc, _, _, _, hfreed⟩ :=
    clients_served hzero hops (Session.reaches_of_bothThrough hf)
  exact ⟨f, c, hf, hc, hfreed (by decide) (by simp [SessionThread.opened, hp])⟩

end UStoreClients

end Ucsb
