import GraphQL.Execution.Run

/-!
# The sites of a job

Everything that a job can still report to the publisher, it reports for the record and with the deferred fragments that
stand at its sites.  `Job.Sites P` says that all of them have a property.
-/

namespace GraphQL

namespace Job

mutual

/-- The records and deferred fragments at all sites of a job have a property. -/
def Sites (P : RecordId → DeferMap → Prop) : Job → Prop
  | .field _ site value => P site.record site.deferMap ∧ value.Sites P
  | .failed _ => True
  | .complete _ site _ => P site.record site.deferMap
  | .await _ site _ _ => P site.record site.deferMap
  | .nonNull _ value => value.Sites P
  | .gather _ _ children => SitesOfSlots P children
  | .iterate _ site _ _ items => P site.record site.deferMap ∧ SitesOfJobs P items
  | .select fields => P fields.record fields.deferMap
  | .serial fields _ (some (_, job)) _ => P fields.record fields.deferMap ∧ job.Sites P
  | .serial fields _ none _ => P fields.record fields.deferMap

/-- The sites of children have a property. -/
def SitesOfSlots (P : RecordId → DeferMap → Prop) : List (Slot Job) → Prop
  | [] => True
  | .running job :: rest => job.Sites P ∧ SitesOfSlots P rest
  | .finished _ :: rest => SitesOfSlots P rest

/-- The sites of jobs have a property. -/
def SitesOfJobs (P : RecordId → DeferMap → Prop) : List Job → Prop
  | [] => True
  | job :: rest => job.Sites P ∧ SitesOfJobs P rest

end

variable {P Q : RecordId → DeferMap → Prop}

mutual

theorem Sites.imp (h : ∀ r m, P r m → Q r m) : ∀ {j : Job}, j.Sites P → j.Sites Q
  | .field .., hj => ⟨h _ _ hj.1, hj.2.imp h⟩
  | .failed _, _ => trivial
  | .complete .., hj => h _ _ hj
  | .await .., hj => h _ _ hj
  | .nonNull _ value, hj => Sites.imp (j := value) h hj
  | .gather _ _ children, hj => SitesOfSlots.imp h children hj
  | .iterate _ _ _ _ items, hj => ⟨h _ _ hj.1, SitesOfJobs.imp h items hj.2⟩
  | .select _, hj => h _ _ hj
  | .serial _ _ (some (_, _)) _, hj => ⟨h _ _ hj.1, hj.2.imp h⟩
  | .serial _ _ none _, hj => h _ _ hj

theorem SitesOfSlots.imp (h : ∀ r m, P r m → Q r m) :
    ∀ slots : List (Slot Job), SitesOfSlots P slots → SitesOfSlots Q slots
  | [], _ => trivial
  | .running _ :: rest, hj => ⟨hj.1.imp h, SitesOfSlots.imp h rest hj.2⟩
  | .finished _ :: rest, hj => SitesOfSlots.imp h rest hj

theorem SitesOfJobs.imp (h : ∀ r m, P r m → Q r m) : ∀ jobs : List Job, SitesOfJobs P jobs → SitesOfJobs Q jobs
  | [], _ => trivial
  | _ :: rest, hj => ⟨hj.1.imp h, SitesOfJobs.imp h rest hj.2⟩

end

theorem sitesOfSlots_iff {slots : List (Slot Job)} :
    SitesOfSlots P slots ↔ ∀ job, Slot.running job ∈ slots → job.Sites P := by
  induction slots with
  | nil => simp [SitesOfSlots]
  | cons slot rest ih => cases slot <;> simp [SitesOfSlots, ih]

theorem sitesOfJobs_iff {jobs : List Job} : SitesOfJobs P jobs ↔ ∀ job ∈ jobs, job.Sites P := by
  induction jobs with
  | nil => simp [SitesOfJobs]
  | cons job rest ih => simp [SitesOfJobs, ih]

/-- Children that were not run. -/
theorem sites_gather (shape : Shape) (started : Bool) {jobs : List Job} (h : ∀ job ∈ jobs, job.Sites P) :
    (Job.gather shape started (jobs.map .running)).Sites P := by
  show SitesOfSlots P (jobs.map .running)
  rw [sitesOfSlots_iff]
  intro job hjob
  obtain ⟨job', hjob', heq⟩ := List.mem_map.1 hjob
  cases heq
  exact h job hjob'

end Job

end GraphQL
