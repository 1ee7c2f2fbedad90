import Splittable.Crew
import Splittable.Proofs.Tracker.Histories
import Splittable.Proofs.Work.Alone

/-!
# What a crew counts

Any number of trackers are used through any number of handles, some of the trackers attached to the
tally and others not.  A roster says what should come of it without a tally and without handles that
count: it keeps the trackers by themselves and the places the handles lead to, and says of every
action which request it makes and which tracker the request meets.  A crew logs these requests, each
with the answer of a tracker by itself, and its tally counts those to the attached trackers.

* `Delivery`, `tallyOf`        : a request and the tracker it meets, and the counts of some;
* `Action`, `Crew.run`         : what is done with a crew, and the log of it;
* `Roster.deliveries`          : the requests that are made by some actions;
* `Follows`                    : every handle leads where the roster says, and counts exactly if the
  tracker there is attached;
* `uncounted`, `run_uncounted` : the crew without a tally replies and does the same;
* `counts_of_actions`          : log, trackers and tally after any actions.
-/

namespace Splittable

/-! ## Requests to a tracker by itself -/

namespace Request

/-- The operations on the tracker that a request stands for. -/
def uses : Request → List Tracker.Use
  | .claim position => [.claim position]
  | .split fraction => [.split fraction]
  | .checkpoint => [.checkpoint]
  | .fail reasons => [.fail (Chain.message reasons)]
  | .checkDone => []

/-- The answer of a tracker to a request. -/
def answer (t : Tracker) : Request → Reply
  | .claim position => .claimed (t.claim position).1
  | .split fraction => .split (t.split fraction).1
  | .checkpoint => .split t.checkpoint.1
  | .fail _ => .failed
  | .checkDone => .checked t.checkDone

end Request

/-- A request to the tracker at a place, and that tracker as the request meets it. -/
structure Delivery where
  place : Nat
  request : Request
  tracker : Tracker

/-- A request that was answered. -/
structure Entry where
  place : Nat
  request : Request
  reply : Reply

namespace Delivery

variable (d : Delivery)

def entry : Entry :=
  ⟨d.place, d.request, d.request.answer d.tracker⟩

/-- A claim that the tracker grants, or one that it does not. -/
def isClaim (granted : Bool) : Bool :=
  match d.request with
  | .claim position => (d.tracker.claim position).1 == granted
  | _ => false

/-- A split or a checkpoint that the tracker grants, or one that it does not. -/
def isSplit (granted : Bool) : Bool :=
  match d.request with
  | .split fraction => (d.tracker.split fraction).1.isOk == granted
  | .checkpoint => d.tracker.checkpoint.1.isOk == granted
  | _ => false

def isFailure : Bool :=
  match d.request with
  | .fail _ => true
  | _ => false

end Delivery

/-- The counts of some requests. -/
def tallyOf (deliveries : List Delivery) : Tally where
  claimsAccepted := deliveries.countP (·.isClaim true)
  claimsRejected := deliveries.countP (·.isClaim false)
  splitsSucceeded := deliveries.countP (·.isSplit true)
  splitsRejected := deliveries.countP (·.isSplit false)
  processingErrors := deliveries.countP (·.isFailure)

theorem tallyOf_nil : tallyOf [] = 0 := rfl

theorem tallyOf_append (deliveries more : List Delivery) :
    tallyOf (deliveries ++ more) = tallyOf deliveries + tallyOf more := by
  ext <;> exact List.countP_append

theorem tallyOf_claim (place : Nat) (t : Tracker) (p : Offset) :
    tallyOf [⟨place, .claim p, t⟩] = (0 : Tally).countClaim (t.claim p).1 := by
  cases h : (t.claim p).1 <;>
    simp [tallyOf, Delivery.isClaim, Delivery.isSplit, Delivery.isFailure, h] <;> rfl

/-- A checkpoint is counted as a split. -/
theorem tallyOf_split {request : Request} {t : Tracker} {result : Except Fault Split}
    (h : request.answer t = .split result) (place : Nat) :
    tallyOf [⟨place, request, t⟩] = (0 : Tally).countSplit result.isOk := by
  cases request <;> cases h <;> cases hok : Except.isOk _ <;>
    simp [tallyOf, Delivery.isClaim, Delivery.isSplit, Delivery.isFailure, hok] <;> rfl

/-- **A member does what its tracker does by itself**, and a request is counted once. -/
theorem Member.act_spec (place : Nat) (t : Tracker) (locked : Bool) (request : Request) :
    ∃ count, (⟨t, locked⟩ : Member).act request =
        (request.answer t, ⟨t.after request.uses, locked⟩, count) ∧
      ∀ n, count n = n + tallyOf [⟨place, request, t⟩] := by
  refine ⟨_, Prod.ext ?_ (Prod.ext ?_ rfl), fun n => ?_⟩
  · cases request <;> rfl
  · cases request <;> rfl
  · cases request with
    | claim p => rw [tallyOf_claim, ← Tally.add_countClaim, add_zero]; rfl
    | split f => rw [tallyOf_split rfl, ← Tally.add_countSplit, add_zero]; rfl
    | checkpoint => rw [tallyOf_split rfl, ← Tally.add_countSplit, add_zero]; rfl
    | fail reasons => rfl
    | checkDone => exact (add_zero n).symm

/-! ## Actions -/

/-- What is done with a crew: a request through a handle or through a split handle, and further
handles. -/
inductive Action where
  | request (handle : Nat) (request : Request)
  | splitThrough (splitHandle : Nat) (fraction : Binary64)
  | clone (handle : Nat)
  | splitHandle (handle : Nat)

namespace Crew

/-- One action: what is logged, and the crew after it.  Through a handle that does not exist nothing
is done. -/
def act (c : Crew) : Action → List Entry × Crew
  | .request i request =>
    match c.handles[i]?, c.perform i request with
    | some h, some (reply, c') => ([⟨h.place, request, reply⟩], c')
    | _, _ => ([], c)
  | .splitThrough k fraction =>
    match c.splitHandles[k]?, c.splitThrough k fraction with
    | some s, some (reply, c') => ([⟨s.handle.place, .split fraction, reply⟩], c')
    | _, _ => ([], c)
  | .clone i => ([], c.clone i)
  | .splitHandle i => ([], c.splitHandle i)

/-- The actions one after the other: the log, and the crew after them. -/
def run (c : Crew) : List Action → List Entry × Crew
  | [] => ([], c)
  | a :: actions => ((c.act a).1 ++ ((c.act a).2.run actions).1, ((c.act a).2.run actions).2)

end Crew

/-! ## The roster -/

/-- Trackers by themselves, and the places that the handles and the split handles lead to. -/
structure Roster where
  trackers : List Tracker
  places : List Nat
  splitPlaces : List Nat

namespace Roster

/-- A tracker that nobody has used for each span, and one handle to each, in this order. -/
def new (spans : List Span) : Roster :=
  ⟨spans.map .new, List.range spans.length, []⟩

/-- A request to the tracker at a place, if there is one. -/
def send (r : Roster) (place : Option Nat) (request : Request) : Option Delivery :=
  place.bind fun i => (r.trackers[i]?).map fun t => ⟨i, request, t⟩

/-- The request that an action makes. -/
def delivery (r : Roster) : Action → Option Delivery
  | .request i request => r.send r.places[i]? request
  | .splitThrough k fraction => r.send r.splitPlaces[k]? (.split fraction)
  | .clone _ | .splitHandle _ => none

/-- The tracker that a request meets is used as the request says. -/
def deliver (r : Roster) (d : Delivery) : Roster :=
  { r with trackers := r.trackers.set d.place (d.tracker.after d.request.uses) }

def act (r : Roster) : Action → Roster
  | .clone i => { r with places := r.places ++ (r.places[i]?).toList }
  | .splitHandle i => { r with splitPlaces := r.splitPlaces ++ (r.places[i]?).toList }
  | a => (r.delivery a).elim r r.deliver

def run (r : Roster) (actions : List Action) : Roster :=
  actions.foldl act r

/-- The requests that are made by some actions, one after the other. -/
def deliveries (r : Roster) : List Action → List Delivery
  | [] => []
  | a :: actions => (r.delivery a).toList ++ (r.act a).deliveries actions

end Roster

/-! ## A crew goes on as its roster says -/

namespace Crew

/-- The handle to a place, which counts if the tracker there is attached. -/
def handleAt (attached : Nat → Bool) (place : Nat) : Handle :=
  ⟨place, attached place⟩

/-- The members are the trackers of the roster, and every handle leads where the roster says and
counts exactly if the tracker there is attached. -/
structure Follows (attached : Nat → Bool) (r : Roster) (c : Crew) : Prop where
  members : c.members = r.trackers.map (⟨·, false⟩)
  handles : c.handles = r.places.map (handleAt attached)
  splitHandles : c.splitHandles.map (·.handle) = r.splitPlaces.map (handleAt attached)
  places : ∀ i ∈ r.places, i < r.trackers.length
  splitPlaces : ∀ i ∈ r.splitPlaces, i < r.trackers.length

/-- The requests to attached trackers. -/
def counted (attached : Nat → Bool) (deliveries : List Delivery) : List Delivery :=
  deliveries.filter fun d => attached d.place

variable {attached : Nat → Bool} {r : Roster} {c : Crew}

theorem counted_append (deliveries more : List Delivery) :
    counted attached (deliveries ++ more) =
      counted attached deliveries ++ counted attached more :=
  List.filter_append ..

theorem Follows.deliver (hc : Follows attached r c) (d : Delivery) (n : Tally) :
    Follows attached (r.deliver d)
      { c with members := c.members.set d.place ⟨d.tracker.after d.request.uses, false⟩,
               tally := n } where
  members := by simp [Roster.deliver, hc.members]
  handles := hc.handles
  splitHandles := hc.splitHandles
  places i hi := by simpa [Roster.deliver] using hc.places i hi
  splitPlaces i hi := by simpa [Roster.deliver] using hc.splitPlaces i hi

/-- **A request through a handle is the request of the roster**: it gets the answer of the tracker
by itself, and is counted if that is attached. -/
theorem Follows.performThrough {α : Type} (hc : Follows attached r c) {place : Nat}
    (hplace : place < r.trackers.length) (request : Request) (hook : Member → α) :
    ∃ t c', r.send (some place) request = some ⟨place, request, t⟩ ∧
      c.performThrough (handleAt attached place) request hook =
        some (request.answer t, hook ⟨t, true⟩, c') ∧
      Follows attached (r.deliver ⟨place, request, t⟩) c' ∧ c'.splitHandles = c.splitHandles ∧
      c'.tally = c.tally + tallyOf (counted attached [⟨place, request, t⟩]) := by
  have hmember : c.members[place]? = some ⟨r.trackers[place], false⟩ := by
    simp [hc.members, hplace]
  obtain ⟨count, hact, hcount⟩ := Member.act_spec place r.trackers[place] true request
  refine ⟨r.trackers[place], _, by simp [Roster.send, hplace], ?_,
    hc.deliver ⟨place, request, _⟩ (if attached place then count c.tally else c.tally), rfl, ?_⟩
  · simp only [Crew.performThrough, handleAt, hmember, Member.lock, hact, Option.bind_eq_bind,
      Option.bind_some, Option.pure_def]
  · cases hattached : attached place with
    | true => simpa [counted, hattached] using hcount c.tally
    | false => simp [counted, hattached, tallyOf_nil]

theorem Follows.handle (hc : Follows attached r c) (i : Nat) :
    c.handles[i]? = (r.places[i]?).map (handleAt attached) := by
  rw [hc.handles, List.getElem?_map]

theorem Follows.splitHandleAt (hc : Follows attached r c) (k : Nat) :
    (c.splitHandles[k]?).map (·.handle) = (r.splitPlaces[k]?).map (handleAt attached) := by
  rw [← List.getElem?_map, hc.splitHandles, List.getElem?_map]

/-- A further handle leads where the handle leads that it is made from. -/
theorem Follows.places_append (hc : Follows attached r c) {places : List Nat}
    (hplaces : ∀ j ∈ places, j < r.trackers.length) (i : Nat) :
    ∀ j ∈ places ++ (r.places[i]?).toList, j < r.trackers.length := by
  intro j hj
  rcases List.mem_append.1 hj with hmem | hmem
  · exact hplaces j hmem
  · exact hc.places j (List.mem_of_getElem? (Option.mem_toList.1 hmem))

theorem Follows.clone (hc : Follows attached r c) (i : Nat) :
    Follows attached (r.act (.clone i)) (c.clone i) where
  members := hc.members
  handles := by
    simp only [Crew.clone, Roster.act, List.map_append, ← hc.handles, hc.handle]
    cases r.places[i]? <;> rfl
  splitHandles := hc.splitHandles
  places := hc.places_append hc.places i
  splitPlaces := hc.splitPlaces

theorem Follows.splitHandle (hc : Follows attached r c) (i : Nat) :
    Follows attached (r.act (.splitHandle i)) (c.splitHandle i) where
  members := hc.members
  handles := hc.handles
  splitHandles := by
    simp only [Crew.splitHandle, Roster.act, List.map_append, ← hc.splitHandles, hc.handle]
    cases r.places[i]? <;> rfl
  places := hc.places
  splitPlaces := hc.places_append hc.splitPlaces i

theorem Follows.keep (hc : Follows attached r c) {k : Nat} {s : SplitHandle}
    (hs : c.splitHandles[k]? = some s) (residuals : List Span) :
    Follows attached r
      { c with splitHandles := c.splitHandles.set k { s with residuals := residuals } } where
  members := hc.members
  handles := hc.handles
  splitHandles := by
    obtain ⟨hk, rfl⟩ := List.getElem?_eq_some_iff.1 hs
    have hmap : k < (c.splitHandles.map (·.handle)).length := by simpa using hk
    rw [← hc.splitHandles, List.map_set]
    simpa using List.set_getElem_self hmap
  places := hc.places
  splitPlaces := hc.splitPlaces

theorem Follows.perform (hc : Follows attached r c) {i place : Nat}
    (hplace : r.places[i]? = some place) (request : Request) :
    ∃ t c', r.delivery (.request i request) = some ⟨place, request, t⟩ ∧
      c.perform i request = some (request.answer t, c') ∧
      Follows attached (r.deliver ⟨place, request, t⟩) c' ∧
      c'.tally = c.tally + tallyOf (counted attached [⟨place, request, t⟩]) := by
  obtain ⟨t, c', hsend, hthrough, hc', -, htally⟩ := hc.performThrough
    (hc.places place (List.mem_of_getElem? hplace)) request fun _ => ()
  refine ⟨t, c', by simp only [Roster.delivery, hplace, hsend], ?_, hc', htally⟩
  simp [Crew.perform, performInspecting, hc.handle, hplace, hthrough]

theorem Follows.splitThrough (hc : Follows attached r c) {k : Nat} {s : SplitHandle}
    (hs : c.splitHandles[k]? = some s) (f : Binary64) :
    ∃ t c', r.delivery (.splitThrough k f) = some ⟨s.handle.place, .split f, t⟩ ∧
      c.splitThrough k f = some (.split (t.split f).1, c') ∧
      Follows attached (r.deliver ⟨s.handle.place, .split f, t⟩) c' ∧
      c'.tally = c.tally + tallyOf (counted attached [⟨s.handle.place, .split f, t⟩]) := by
  have hhandle := hc.splitHandleAt k
  rw [hs, Option.map_some, eq_comm, Option.map_eq_some_iff] at hhandle
  obtain ⟨place, hplace, hleads⟩ := hhandle
  obtain ⟨t, c', hsend, hthrough, hc', hkept, htally⟩ := hc.performThrough
    (hc.splitPlaces place (List.mem_of_getElem? hplace)) (.split f) fun _ => ()
  rw [hleads] at hthrough
  rw [← hleads]
  rw [← hkept] at hs
  refine ⟨t, _, by simp only [Roster.delivery, hplace, hsend]; rfl, ?_,
    hc'.keep hs (s.residuals ++ (Reply.split (t.split f).1).residual), htally⟩
  rw [Crew.splitThrough, ← hkept, hs]
  simp only [Option.bind_eq_bind, Option.bind_some, hthrough, Option.pure_def]
  rfl

/-- **Every action** is what the roster says: the crew logs the request of the roster, and adds it
to the tally if its tracker is attached. -/
theorem Follows.act (hc : Follows attached r c) (a : Action) :
    Follows attached (r.act a) (c.act a).2 ∧
      (c.act a).1 = (r.delivery a).toList.map Delivery.entry ∧
      (c.act a).2.tally = c.tally + tallyOf (counted attached (r.delivery a).toList) := by
  have hquiet : c.tally = c.tally + tallyOf (counted attached []) := (add_zero _).symm
  cases a with
  | request i request =>
    cases hplace : r.places[i]? with
    | none =>
      have hhandle : c.handles[i]? = none := by rw [hc.handle, hplace]; rfl
      simp only [Crew.act, hhandle, Roster.act, Roster.delivery, Roster.send, hplace]
      exact ⟨hc, rfl, hquiet⟩
    | some place =>
      have hhandle : c.handles[i]? = some (handleAt attached place) := by
        rw [hc.handle, hplace]; rfl
      obtain ⟨t, c', hdelivery, hperform, hc', htally⟩ := hc.perform hplace request
      simp only [Crew.act, hhandle, hperform, Roster.act, hdelivery]
      exact ⟨hc', rfl, htally⟩
  | splitThrough k f =>
    cases hs : c.splitHandles[k]? with
    | none =>
      have hplace : r.splitPlaces[k]? = none := by
        have hhandle := hc.splitHandleAt k
        rwa [hs, Option.map_none, eq_comm, Option.map_eq_none_iff] at hhandle
      simp only [Crew.act, hs, Roster.act, Roster.delivery, Roster.send, hplace]
      exact ⟨hc, rfl, hquiet⟩
    | some s =>
      obtain ⟨t, c', hdelivery, hsplit, hc', htally⟩ := hc.splitThrough hs f
      simp only [Crew.act, hs, hsplit, Roster.act, hdelivery]
      exact ⟨hc', rfl, htally⟩
  | clone i => exact ⟨hc.clone i, rfl, hquiet⟩
  | splitHandle i => exact ⟨hc.splitHandle i, rfl, hquiet⟩

/-- **So are any actions.** -/
theorem Follows.run (hc : Follows attached r c) (actions : List Action) :
    Follows attached (r.run actions) (c.run actions).2 ∧
      (c.run actions).1 = (r.deliveries actions).map Delivery.entry ∧
      (c.run actions).2.tally = c.tally + tallyOf (counted attached (r.deliveries actions)) := by
  induction actions generalizing r c with
  | nil => exact ⟨hc, rfl, (add_zero _).symm⟩
  | cons a actions ih =>
    obtain ⟨hnext, hentry, htally⟩ := hc.act a
    obtain ⟨hlast, hlog, hrest⟩ := ih hnext
    refine ⟨hlast, ?_, ?_⟩
    · rw [Roster.deliveries, List.map_append, ← hentry, ← hlog, Crew.run]
    · rw [Roster.deliveries, counted_append, tallyOf_append, ← add_assoc, ← htally, ← hrest]
      rfl

/-- Whether the tracker at a place is attached to the tally. -/
def attachedAt (spans : List (Span × Bool)) (place : Nat) : Bool :=
  (spans[place]?.map (·.2)).getD false

theorem follows_new (spans : List (Span × Bool)) :
    Follows (attachedAt spans) (.new (spans.map (·.1))) (new spans) where
  members := by simp [new, Roster.new, Member.new, Function.comp_def]
  handles := by
    refine List.ext_getElem (by simp [new, Roster.new]) fun i hi _ => ?_
    have hlt : i < spans.length := by simpa [new] using hi
    simp [new, Roster.new, handleAt, attachedAt, hlt]
  splitHandles := rfl
  places i hi := by simpa [Roster.new] using hi
  splitPlaces i hi := by cases hi

/-- What a request comes to does not depend on who looks on. -/
theorem performInspecting_eq_perform {α : Type} (c : Crew) (i : Nat) (request : Request)
    (hook : Member → α) :
    (c.performInspecting i request hook).map (fun seen => (seen.1, seen.2.2)) =
      c.perform i request := by
  unfold perform performInspecting
  cases c.handles[i]? with
  | none => rfl
  | some h =>
    simp only [Option.bind_eq_bind, Option.bind_some, performThrough]
    cases c.members[h.place]? <;> rfl

theorem Follows.exists_perform (hc : Follows attached r c) {i : Nat} (hi : i < c.handles.length)
    (request : Request) : ∃ reply c', c.perform i request = some (reply, c') := by
  have hplace : i < r.places.length := by simpa [hc.handles] using hi
  obtain ⟨t, c', -, hperform, -⟩ := hc.perform (List.getElem?_eq_getElem hplace) request
  exact ⟨_, c', hperform⟩

theorem Follows.exists_splitThrough (hc : Follows attached r c) {k : Nat}
    (hk : k < c.splitHandles.length) (f : Binary64) :
    ∃ reply c', c.splitThrough k f = some (reply, c') := by
  obtain ⟨t, c', -, hsplit, -⟩ := hc.splitThrough (List.getElem?_eq_getElem hk) f
  exact ⟨_, c', hsplit⟩

/-! ## Without a tally -/

/-- The crew with no tracker attached. -/
def uncounted (c : Crew) : Crew where
  members := c.members
  handles := c.handles.map fun h => { h with counted := false }
  splitHandles := c.splitHandles.map fun s =>
    { s with handle := { s.handle with counted := false } }
  tally := .empty

theorem performThrough_uncounted {α : Type} (c : Crew) (h : Handle) (request : Request)
    (hook : Member → α) :
    c.uncounted.performThrough { h with counted := false } request hook =
      (c.performThrough h request hook).map fun (reply, seen, c') =>
        (reply, seen, c'.uncounted) := by
  unfold performThrough
  cases hm : c.members[h.place]? <;> simp [uncounted, hm]

theorem perform_uncounted (c : Crew) (i : Nat) (request : Request) :
    c.uncounted.perform i request =
      (c.perform i request).map fun (reply, c') => (reply, c'.uncounted) := by
  simp only [perform, performInspecting, uncounted, List.getElem?_map]
  cases c.handles[i]? with
  | none => rfl
  | some h =>
    simp only [Option.map_some, Option.bind_eq_bind, Option.bind_some]
    have hthrough := c.performThrough_uncounted h request fun _ => ()
    simp only [uncounted] at hthrough
    rw [hthrough, Option.map_map, Option.map_map]
    rfl

theorem splitThrough_uncounted (c : Crew) (k : Nat) (fraction : Binary64) :
    c.uncounted.splitThrough k fraction =
      (c.splitThrough k fraction).map fun (reply, c') => (reply, c'.uncounted) := by
  unfold splitThrough
  cases hs : c.splitHandles[k]? with
  | none => simp [uncounted, hs]
  | some s =>
    have hs' : c.uncounted.splitHandles[k]? =
        some { s with handle := { s.handle with counted := false } } := by
      simp [uncounted, hs]
    simp only [hs', Option.bind_eq_bind, Option.bind_some, performThrough_uncounted]
    cases c.performThrough s.handle (.split fraction) fun _ => () with
    | none => rfl
    | some outcome => simp [uncounted, List.map_set]

/-- **An action comes to the same without a tally.** -/
theorem act_uncounted (c : Crew) (a : Action) :
    c.uncounted.act a = ((c.act a).1, (c.act a).2.uncounted) := by
  cases a with
  | request i request =>
    have hhandle : c.uncounted.handles[i]? =
        (c.handles[i]?).map fun h => { h with counted := false } := List.getElem?_map ..
    simp only [act, perform_uncounted, hhandle]
    cases c.handles[i]? <;> cases c.perform i request <;> rfl
  | splitThrough k f =>
    have hhandle : c.uncounted.splitHandles[k]? = (c.splitHandles[k]?).map fun s =>
        { s with handle := { s.handle with counted := false } } := List.getElem?_map ..
    simp only [act, splitThrough_uncounted, hhandle]
    cases c.splitHandles[k]? <;> cases c.splitThrough k f <;> rfl
  | clone i =>
    simp only [act, clone, uncounted, List.map_append, List.getElem?_map]
    cases c.handles[i]? <;> rfl
  | splitHandle i =>
    simp only [act, splitHandle, uncounted, List.map_append, List.getElem?_map]
    cases c.handles[i]? <;> rfl

/-- **So do all actions.** -/
theorem run_uncounted (c : Crew) (actions : List Action) :
    c.uncounted.run actions = ((c.run actions).1, (c.run actions).2.uncounted) := by
  induction actions generalizing c with
  | nil => rfl
  | cons a actions ih => simp only [run, act_uncounted, ih]

theorem uncounted_new (spans : List (Span × Bool)) :
    (new spans).uncounted = new (spans.map fun (span, _) => (span, false)) := by
  simp [uncounted, new, List.mapIdx_eq_zipIdx_map, List.zipIdx_map, Function.comp_def]

/-! ## Any actions -/

/-- **A crew counts what is asked of its attached trackers.**  Some trackers are attached to the
tally and others not.  After any actions, through the handles, their clones and split handles, the
log is the requests that were made, each with the answer of its tracker by itself, and the members
are these trackers.  Each count is the number of the requests of that kind to attached trackers, and
every claim among them was accepted or rejected.  No request is left without a reply, and it comes
to the same with any hook.  With no tracker attached the same actions are answered alike, leave the
trackers and the residuals as they are, and are not counted. -/
theorem counts_of_actions (spans : List (Span × Bool)) (actions : List Action) :
    let plain := Roster.new (spans.map (·.1))
    let ran := (new spans).run actions
    let requests := counted (attachedAt spans) (plain.deliveries actions)
    let bare := (new (spans.map fun (span, _) => (span, false))).run actions
    ran.1 = (plain.deliveries actions).map Delivery.entry ∧
    ran.2.members = (plain.run actions).trackers.map (⟨·, false⟩) ∧
    ran.2.tally = tallyOf requests ∧
    ran.2.tally.claimsAttempted =
      requests.countP (·.isClaim true) + requests.countP (·.isClaim false) ∧
    (∀ i request, i < ran.2.handles.length →
      ∃ reply c', ran.2.perform i request = some (reply, c')) ∧
    (∀ (α : Type) i request (hook : Member → α),
      (ran.2.performInspecting i request hook).map (fun seen => (seen.1, seen.2.2)) =
        ran.2.perform i request) ∧
    (∀ k f, k < ran.2.splitHandles.length →
      ∃ reply c', ran.2.splitThrough k f = some (reply, c')) ∧
    bare.1 = ran.1 ∧ bare.2.members = ran.2.members ∧
    bare.2.splitHandles.map (·.residuals) = ran.2.splitHandles.map (·.residuals) ∧
    bare.2.tally = .empty := by
  intro plain ran requests bare
  obtain ⟨hlast, hlog, hgrowth⟩ := (follows_new spans).run actions
  have htally : ran.2.tally = tallyOf requests := hgrowth.trans (zero_add _)
  have hbare : bare = (ran.1, ran.2.uncounted) := by
    rw [← run_uncounted, uncounted_new]
  refine ⟨hlog, hlast.members, htally, by rw [htally]; rfl,
    fun _ request hi => hlast.exists_perform hi request,
    fun _ => ran.2.performInspecting_eq_perform, fun _ f hk => hlast.exists_splitThrough hk f, ?_⟩
  rw [hbare]
  exact ⟨rfl, rfl, by simp [uncounted], rfl⟩

end Crew

end Splittable
