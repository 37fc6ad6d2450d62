-- The fair claim as a selection: a window of the oldest eligible rows, and of
-- each carrier in that window its oldest rows, up to the cap. A cap as wide as
-- the window caps nothing.
import SkipLocked.FairShare
import SkipLocked.OldestFirst

open jsonb postgres keyed_table selection

namespace skip_locked.claim

/-! ## A wide cap -/

section
variable {α π : Type} [DecidableEq π] (part : α → π)

/-- A cap that no partition can reach keeps every row. -/
theorem withinCap_all {cap : Int} (seen : List α) {l : List α}
    (h : (seen.length + l.length : Int) ≤ cap) :
    withinCap part cap (seen.map part) l = l := by
  induction l generalizing seen with
  | nil => simp [withinCap, rowNumbers]
  | cons r rest ih =>
    rw [List.length_cons] at h
    have hcount : (seen.map part).count (part r) ≤ seen.length := by
      have hle := List.count_le_length (a := part r) (l := seen.map part)
      rwa [List.length_map] at hle
    have hrest := ih (r :: seen) (by rw [List.length_cons]; omega)
    rw [List.map_cons] at hrest
    rw [withinCap_cons, if_pos (by omega), hrest]

end

/-! ## The rows of one carrier -/

def ofCarrier (c : Option Text) (rows : List JobRow) : List JobRow :=
  rows.filter (fun r => decide (carrier_id r = c))

/-- The rows of the window that the claim returned. -/
def returnedRows (window : List JobRow) (jobs : List Job) : List JobRow :=
  window.filter (fun r => (jobs.map (·.id)).contains r.id)

/-- The ranking keeps the oldest rows of each carrier of the window. -/
theorem keptRows_lowest {per_tenant_cap : Int} {plan : Plan} {locked : List JobRow}
    (c : Option Text) :
    Lowest JobRow.run_at per_tenant_cap.toNat (ofCarrier c locked)
      (ofCarrier c (keptRows per_tenant_cap plan locked)) := by
  have hsorted :=
    (byRunAt_sorted (plan.rank.order locked)).filter (fun r => decide (carrier_id r = c))
  have hperm := (ranked_perm plan locked).filter (fun r => decide (carrier_id r = c))
  unfold keptRows ofCarrier
  rw [filter_withinCap]
  exact (lowest_take hsorted per_tenant_cap.toNat).perm hperm (List.Perm.refl _)

theorem keptRows_all {per_tenant_cap : Int} (plan : Plan) {locked : List JobRow}
    (h : (locked.length : Int) ≤ per_tenant_cap) :
    (keptRows per_tenant_cap plan locked).Perm locked := by
  have hperm := ranked_perm plan locked
  have hfits : (([] : List JobRow).length + (byRunAt (plan.rank.order locked)).length : Int) ≤
      per_tenant_cap := by
    rw [hperm.length_eq]
    simpa using h
  have hall := withinCap_all carrier_id [] hfits
  unfold keptRows
  rw [List.map_nil] at hall
  rwa [hall]

/-- An update by a list of ids does not depend on their order. -/
theorem takeRows_congr (db : Db) (now : Int) (worker_id : Text) {ids ids' : List Int}
    (plan : Plan) (h : ids.Perm ids') :
    takeRows db now worker_id ids plan = takeRows db now worker_id ids' plan := by
  have hlisted : (fun r : JobRow => ids.contains r.id) = (fun r => ids'.contains r.id) := by
    funext r
    rw [Bool.eq_iff_iff, List.contains_iff_mem, List.contains_iff_mem, h.mem_iff]
  unfold takeRows
  rw [hlisted]

/-! ## The law -/

/-- What a fair claim does, given its window: it returns, of each carrier in the window, the
oldest rows up to the cap, and it changes these rows, in four columns, and nothing else. -/
structure CapsCarriers (db : Db) (now : Int) (kinds : List Text) (batch per_tenant_cap : Int)
    (worker_id : Text) (plan : Plan) (db' : Db) (jobs : List Job) (window : List JobRow) :
    Prop where
  oldest : Lowest JobRow.run_at (batch * 4).toNat (eligible db.jobs now kinds plan.locked) window
  distinct : (jobs.map (·.id)).Nodup
  taken : ∀ job ∈ jobs, ∃ r ∈ window,
    job = { id := r.id, kind := r.kind, payload := r.payload, attempts := r.attempts + 1 }
  share : ∀ c, Lowest JobRow.run_at per_tenant_cap.toNat (ofCarrier c window)
    (ofCarrier c (returnedRows window jobs))
  capped : ∀ c, ((ofCarrier c (returnedRows window jobs)).length : Int) ≤ per_tenant_cap
  present : 1 ≤ per_tenant_cap → ∀ r ∈ window, ∃ s ∈ returnedRows window jobs,
    carrier_id s = carrier_id r
  nonempty : eligible db.jobs now kinds plan.locked ≠ [] → 1 ≤ batch → 1 ≤ per_tenant_cap →
    jobs ≠ []
  changed : ∀ k, db'.jobs.find k = (db.jobs.find k).map (fun r =>
    if k ∈ jobs.map (·.id) then
      { r with state := .running, locked_at := some now, locked_by := some worker_id,
               attempts := r.attempts + 1 }
    else r)
  rest : db' = { db with jobs := db'.jobs }

theorem window_nodup (db : Db) (now : Int) (kinds : List Text) (batch : Int) (plan : Plan) :
    (fairWindow db now kinds batch plan).Nodup :=
  (lockWindow_nodup db.jobs now kinds _ plan).of_map

/-- The returned rows are the rows that the ranking kept. -/
theorem returnedRows_perm {db : Db} {now : Int} {kinds : List Text} {batch per_tenant_cap : Int}
    {worker_id : Text} {plan : Plan} {jobs : List Job}
    (hperm : jobs.Perm ((keptRows per_tenant_cap plan (fairWindow db now kinds batch plan)).map
      (fun r => jobOf (setRunning now worker_id r)))) :
    (returnedRows (fairWindow db now kinds batch plan) jobs).Perm
      (keptRows per_tenant_cap plan (fairWindow db now kinds batch plan)) := by
  have hkept := (fairRows_nodup db now kinds batch per_tenant_cap plan).of_map
  have hreturned := (window_nodup db now kinds batch plan).filter
    (fun r => (jobs.map (·.id)).contains r.id)
  apply (List.perm_ext_iff_of_nodup hreturned hkept).mpr
  intro r
  rw [List.mem_filter, List.contains_iff_mem]
  constructor
  · rintro ⟨hr, hid⟩
    exact (id_mem_jobs (fun s hs => mem_fairRows hs) hperm (mem_lockWindow hr).1).mp hid
  · intro hr
    exact ⟨keptRows_subset hr,
      (id_mem_jobs (fun s hs => mem_fairRows hs) hperm (mem_fairRows hr)).mpr hr⟩

/-- Under a cap of at least one, each carrier of the window has a row among those it returns. -/
theorem carrier_present {cap : Nat} {window : List JobRow} {jobs : List Job}
    (hshare : ∀ c, Lowest JobRow.run_at cap (ofCarrier c window)
      (ofCarrier c (returnedRows window jobs))) (hcap : 1 ≤ cap) {r : JobRow} (hr : r ∈ window) :
    ∃ s ∈ returnedRows window jobs, carrier_id s = carrier_id r := by
  have hsize := (hshare (carrier_id r)).size
  have hpos : 0 < (ofCarrier (carrier_id r) window).length := by
    apply List.length_pos_of_mem (a := r)
    exact List.mem_filter.mpr ⟨hr, by simp⟩
  obtain ⟨s, hs⟩ := List.exists_mem_of_length_pos (l := ofCarrier (carrier_id r)
    (returnedRows window jobs)) (by omega)
  obtain ⟨hs, hc⟩ := List.mem_filter.mp hs
  exact ⟨s, hs, by simpa using hc⟩

theorem fair_claim_capped {db db' : Db} {now : Int} {kinds : List Text}
    {batch per_tenant_cap : Int} {worker_id : Text} {plan : Plan} {jobs : List Job}
    (hcap : 0 ≤ per_tenant_cap)
    (hok : fair_claim db now kinds batch per_tenant_cap worker_id plan = .ok (db', jobs))
    (hperm : jobs.Perm ((keptRows per_tenant_cap plan (fairWindow db now kinds batch plan)).map
      (fun r => jobOf (setRunning now worker_id r)))) :
    CapsCarriers db now kinds batch per_tenant_cap worker_id plan db' jobs
      (fairWindow db now kinds batch plan) := by
  have htook := fair_claim_took hok
  have hlow : Lowest JobRow.run_at (batch * 4).toNat (eligible db.jobs now kinds plan.locked)
      (fairWindow db now kinds batch plan) := lockWindow_lowest db.jobs now kinds _ plan
  have hshare : ∀ c, Lowest JobRow.run_at per_tenant_cap.toNat
      (ofCarrier c (fairWindow db now kinds batch plan))
      (ofCarrier c (returnedRows (fairWindow db now kinds batch plan) jobs)) := by
    intro c
    apply (keptRows_lowest c).perm (List.Perm.refl _)
    exact ((returnedRows_perm hperm).symm).filter _
  refine ⟨hlow, htook.nodup, ?_, hshare, ?_, ?_, ?_, htook.row, htook.same⟩
  · intro job hjob
    obtain ⟨r, hr, rfl⟩ := List.mem_map.mp (hperm.mem_iff.mp hjob)
    exact ⟨r, keptRows_subset hr, rfl⟩
  · intro c
    have := (hshare c).size
    omega
  · intro hone r hr
    exact carrier_present hshare (by omega) hr
  · rintro hsome hbatch hone rfl
    -- the window of a wanted row is not empty, and its first row has a carrier
    have hpos : 0 < (fairWindow db now kinds batch plan).length := by
      have := hlow.size
      have := List.length_pos_iff.mpr hsome
      omega
    obtain ⟨r, hr⟩ := List.exists_mem_of_length_pos hpos
    obtain ⟨s, hs, _⟩ := carrier_present hshare (by omega) hr
    have := (List.mem_filter.mp hs).2
    simp at this

/-- A fair claim is exactly the capped selection of its window. Under a cap as wide as the
window it is the batch claim of that many rows. -/
theorem a_fair_claim_is_the_capped_selection (db : Db)
    (hfit : ∀ r ∈ db.jobs.rows, r.attempts < INT4_MAX) (now : Int) (kinds : List Text)
    (batch per_tenant_cap : Int) (worker_id : Text) (plan : Plan) (h0 : 0 ≤ batch)
    (hwide : batch * 4 ≤ INT8_MAX) (hcap : 0 ≤ per_tenant_cap) :
    ∃ db' jobs window,
      fair_claim db now kinds batch per_tenant_cap worker_id plan = .ok (db', jobs) ∧
      CapsCarriers db now kinds batch per_tenant_cap worker_id plan db' jobs window ∧
      (batch * 4 ≤ per_tenant_cap →
        claim_batch db now kinds (batch * 4) worker_id plan = .ok (db', jobs)) := by
  have htakes := fair_claim_takes db now kinds per_tenant_cap worker_id plan h0 hwide
  rcases takeRows_cases now worker_id plan (fairRows_nodup db now kinds batch per_tenant_cap plan)
    (fun r hr => mem_fairRows hr) with ⟨⟨r, hr, hlast⟩, _⟩ | ⟨_, db', jobs, hok, hperm⟩
  · have := hfit r (mem_fairRows hr)
    omega
  · refine ⟨db', jobs, fairWindow db now kinds batch plan, htakes.trans hok,
      fair_claim_capped hcap (htakes.trans hok) hperm, ?_⟩
    intro hall
    have hlen : ((fairWindow db now kinds batch plan).length : Int) ≤ per_tenant_cap := by
      have := (lockWindow_lowest db.jobs now kinds (batch * 4).toNat plan).size
      unfold fairWindow
      omega
    have hlimit : limitOf (batch * 4) = .ok (batch * 4).toNat := if_neg (by omega)
    unfold claim_batch
    rw [hlimit, ← hok]
    exact takeRows_congr db now worker_id plan ((keptRows_all plan hlen).map (·.id)).symm

/-- Two carriers under a cap of one: each has a row among those returned. -/
theorem a_cap_of_one_reaches_two_carriers :
    ∃ db' jobs window, fair_claim twoCarriers 0 ["k"] 1 1 "w" .alone = .ok (db', jobs) ∧
      CapsCarriers twoCarriers 0 ["k"] 1 1 "w" .alone db' jobs window ∧
      ((1 : Int) * 4 ≤ 1 → claim_batch twoCarriers 0 ["k"] (1 * 4) "w" .alone = .ok (db', jobs)) :=
  a_fair_claim_is_the_capped_selection twoCarriers (by decide) 0 ["k"] 1 1 "w" .alone (by decide)
    (by decide) (by decide)

end skip_locked.claim
