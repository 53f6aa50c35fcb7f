import EvolutionarySearch.Proofs.Search.Calls
import EvolutionarySearch.Proofs.Search.Grammar
import EvolutionarySearch.Proofs.Search.Journal

/-!
# When a search fails

A search that has been started can fail in one way only: `create` leaves a candidate to be sampled
from the gene set, and there is nothing to sample from or no length to sample to. A candidate is
created for a new slot, as a child, or for the slot of a donor, and it makes no difference for which
of them. Nothing of the search is lost with the step that fails.

`creation` says where a step calls `create`. That it does so there and nowhere else can be seen from
outside, by a problem that logs the calls (`CreationLog`); every problem can be made to do that.

* `Turn.of_error`, `Turn.error_of_creation` — what fails a step, and what it leaves
* `errors_exact` — the errors of a session
-/

namespace EvolutionarySearch.Search

variable {ω Gene Fitness : Type}

/-! ## Candidates that cannot be sampled -/

/-- The error of a candidate that is to be sampled without genes, or without a length. -/
inductive Problem.Unsampled (p : Problem ω Gene Fitness) (length : Nat) : SearchError → Prop where
  | noGenes (hgenes : p.geneSet = #[]) : Unsampled p length .emptyGeneSet
  | noLength (hgenes : p.geneSet ≠ #[]) (hlength : length = 0) :
    Unsampled p length (.invalidConfig .zeroTargetLength)

section Candidates

variable [WordSource ω] [Clock ω] {p : Problem ω Gene Fitness} {length : Nat} {w : ω}
  {error : SearchError}

theorem generate_error_iff :
    (p.generate length w).1 = .error error ↔ (p.create w).1 = none ∧ p.Unsampled length error := by
  constructor
  · intro h
    unfold Problem.generate at h
    split at h
    · cases h
    · next hcreate =>
      refine ⟨congrArg Prod.fst hcreate, ?_⟩
      split at h
      · next hgenes => cases h; exact .noGenes (Array.isEmpty_iff.mp hgenes)
      · next hgenes =>
        split at h
        · next hlength => cases h; exact .noLength (by simpa using hgenes) hlength
        · cases h
  · rintro ⟨hnone, hrefused⟩
    have hcreate : p.create w = (none, (p.create w).2) := Prod.ext hnone rfl
    unfold Problem.generate
    rw [hcreate]
    cases hrefused with
    | noGenes hgenes => simp [hgenes]
    | noLength hgenes hlength => simp [hgenes, hlength]

/-- A candidate that has been sampled shows that there are genes and a length. -/
theorem not_unsampled_of_generate {candidate : Evaluation Gene Fitness}
    (hcreate : (p.create w).1 = none) (h : (p.generate length w).1 = .ok candidate) :
    ¬p.Unsampled length error := by
  intro hrefused
  rw [generate_error_iff.mpr ⟨hcreate, hrefused⟩] at h
  cases h

end Candidates

/-! ## Steps that fail -/

/-- What a search keeps when it fails: the pool, and all by which it adapts. -/
structure Spared (s s' : Search Gene Fitness) : Prop where
  pool : s'.pool = s.pool
  best : s'.best = s.best
  history : s'.history = s.history
  repertoire : s'.repertoire = s.repertoire

section Steps

variable [WordSource ω] [Clock ω] {p : Problem ω Gene Fitness} {cfg : Config}
  {s : Search Gene Fitness} {w : ω} {error : SearchError}

/-- No child can be bred exactly when the candidate that is to be created cannot be built. -/
theorem Attempt.error_iff {bred : Breeding ω Gene Fitness} (h : Attempt p cfg s w bred) :
    bred.outcome = .error error ↔
      ∃ v, broodCreation p s w = some v ∧ (p.generate cfg.targetLength v).1 = .error error := by
  cases h with
  | combined hdraw hcross => simp [broodCreation, hdraw, hcross]
  | unmatched hdraw hcross hgen => simp [broodCreation, hdraw, hcross, hgen]
  | refilled hdraw hcross hgen => simp [broodCreation, hdraw, hcross, hgen]
  | uncreated hdraw hgen => simp [broodCreation, hdraw, hgen]
  | created hdraw hgen => simp [broodCreation, hdraw, hgen]
  | mutated hdraw hmutates => rcases hmutates with rfl | rfl <;> simp [broodCreation, hdraw]

variable [Ord Fitness] [Std.TransOrd Fitness] {taken : Step ω Gene Fitness}

theorem Verdict.ne_error {slot : Nat} {parent child : Chromosome Gene Fitness} {kept : Bool}
    {evaluated : List (Evaluation Gene Fitness)}
    (h : Verdict cfg s slot parent kept child w evaluated taken) (hs : s.records.Coherent) :
    taken.progress ≠ .answered (.error error) := by
  cases h with
  | surpassed hbetter hbest =>
    rw [promote_eq (s := s.settle slot child) hs hbest]
    simp
  | _ => simp [proceed]

/-- A step that fails has created a candidate in vain, and leaves the search as it was. -/
theorem Turn.of_error (h : Turn p cfg s w taken) (hs : s.records.Coherent)
    (hanswer : taken.progress = .answered (.error error)) :
    (∃ v, creation p cfg s w = some v ∧ (p.generate cfg.targetLength v).1 = .error error) ∧
      taken.search.phase = .ended ∧ s.Spared taken.search := by
  cases h with
  | unfilled hphase htime hroom hgen =>
    cases hanswer
    exact ⟨⟨w, creation_of_room hphase htime hroom, hgen⟩, rfl, ⟨rfl, rfl, rfl, rfl⟩⟩
  | barren hphase htime hfull hbred =>
    cases hanswer
    rw [creation_of_full hphase htime hfull]
    exact ⟨(brood_attempt p cfg s w).error_iff.mp hbred, rfl, ⟨rfl, rfl, rfl, rfl⟩⟩
  | filledBest hphase htime hroom hgen hbest =>
    rw [promote_eq (s := s.widened _) hs hbest] at hanswer
    cases hanswer
  | visit hphase htime hfull hbred hverdict =>
    exact absurd hanswer (hverdict.ne_error (by simpa using hs))
  | silent | timedOut | announced | filled => cases hanswer

omit [Std.TransOrd Fitness] in
/-- A candidate that is created in vain fails the step. -/
theorem Turn.error_of_creation {v : ω} (h : Turn p cfg s w taken)
    (hcreation : creation p cfg s w = some v)
    (hgen : (p.generate cfg.targetLength v).1 = .error error) :
    taken.progress = .answered (.error error) := by
  cases h with
  | silent hphase => simp [creation_of_idle, hphase] at hcreation
  | timedOut hphase hlate => simp [creation_of_idle, hlate] at hcreation
  | announced hphase htime => simp [creation_of_idle, hphase] at hcreation
  | unfilled hphase htime hroom hunfilled =>
    rw [creation_of_room hphase htime hroom] at hcreation
    cases hcreation
    rw [hunfilled] at hgen
    cases hgen
    rfl
  | filled hphase htime hroom hfilled hbest =>
    rw [creation_of_room hphase htime hroom] at hcreation
    cases hcreation
    rw [hfilled] at hgen
    cases hgen
  | filledBest hphase htime hroom hfilled hbest =>
    rw [creation_of_room hphase htime hroom] at hcreation
    cases hcreation
    rw [hfilled] at hgen
    cases hgen
  | barren hphase htime hfull hbred =>
    rw [creation_of_full hphase htime hfull] at hcreation
    rw [(brood_attempt p cfg s w).error_iff.mpr ⟨v, hcreation, hgen⟩] at hbred
    cases hbred
    rfl
  | visit hphase htime hfull hbred hverdict =>
    rw [creation_of_full hphase htime hfull] at hcreation
    rw [(brood_attempt p cfg s w).error_iff.mpr ⟨v, hcreation, hgen⟩] at hbred
    cases hbred

end Steps

/-- A step in which `create` asks for a candidate to be sampled, and that cannot be done. -/
def Stride.Refuses [WordSource ω] [Clock ω] (p : Problem ω Gene Fitness) (cfg : Config)
    (stride : Stride ω Gene Fitness) (error : SearchError) : Prop :=
  ∃ v, creation p cfg stride.before stride.world = some v ∧ (p.create v).1 = none ∧
    p.Unsampled cfg.targetLength error

/-! ## Logs of what is created -/

/-- A log in the world, with an entry for the answer of every call of `create` and no other. -/
structure CreationLog [WordSource ω] (p : Problem ω Gene Fitness)
    (log : ω → List (Option (List Gene))) : Prop where
  next32 : ∀ w, log (WordSource.next32 w).2 = log w
  next64 : ∀ w, log (WordSource.next64 w).2 = log w
  create : ∀ w, log (p.create w).2 = log w ++ [(p.create w).1]
  mutate : ∀ genes w, log (p.mutate genes w).2 = log w
  crossover : ∀ parent donor w, log (p.crossover parent donor w).2 = log w

theorem CreationLog.passage [WordSource ω] {p : Problem ω Gene Fitness}
    {log : ω → List (Option (List Gene))} (hlog : CreationLog p log) {w v : ω}
    {calls : List (Call Gene)} (h : Passage p w calls v) : log v = log w ++ creations calls := by
  induction h with
  | stay => simp
  | word32 h ih => rw [hlog.next32, ih]
  | word64 h ih => rw [hlog.next64, ih]
  | create h ih => simp [hlog.create, ih]
  | mutate h parent ih => simp [hlog.mutate, ih]
  | crossover h hrecombines parent donor ih => simp [hlog.crossover, ih]

/-- The problem with a `create` that also writes its answer into a log. -/
def Problem.attested (p : Problem ω Gene Fitness) :
    Problem (Journaled ω (Option (List Gene))) Gene Fitness where
  geneSet := p.geneSet
  fitness := p.fitness
  optimal := p.optimal
  create w := ((p.create w.world).1, ⟨(p.create w.world).2, w.entries ++ [(p.create w.world).1]⟩)
  mutate genes w := ((p.mutate genes w.world).1, { w with world := (p.mutate genes w.world).2 })
  recombines := p.recombines
  crossover parent donor w :=
    ((p.crossover parent donor w.world).1,
      { w with world := (p.crossover parent donor w.world).2 })
  display c time w := { w with world := p.display c time w.world }

theorem creationLog_attested [WordSource ω] (p : Problem ω Gene Fitness) :
    CreationLog p.attested Journaled.entries where
  next32 _ := rfl
  next64 _ := rfl
  create _ := rfl
  mutate _ _ := rfl
  crossover _ _ _ := rfl

/-! ## Sessions -/

variable [Ord Fitness] [WordSource ω] [Clock ω] {p : Problem ω Gene Fitness} {cfg : Config}
  {steps : Nat} {changes : List (ω → ω)} {run : Session ω Gene Fitness} {w : ω}

/-- What is to be said of the errors of a session, after a number of pulls. -/
structure Errors (p : Problem ω Gene Fitness) (cfg : Config) (pulls : Nat)
    (run : Session ω Gene Fitness) : Prop where
  /-- A pull answers with an error exactly when its last step creates a candidate in vain. -/
  exactly : ∀ leg ∈ run.legs, ∃ before last, leg.strides = before ++ [last] ∧
    ∀ error, leg.pull.answer = some (.error error) ↔ last.Refuses p cfg error
  /-- The step that fails leaves the search as it was before. -/
  spared : ∀ leg ∈ run.legs, ∀ before last error, leg.strides = before ++ [last] →
    leg.pull.answer = some (.error error) → last.before.Spared leg.pull.search
  /-- After an error every pull is answered, with nothing. -/
  silent : ∀ earlier leg later error, run.legs = earlier ++ leg :: later →
    leg.pull.answer = some (.error error) →
      (∀ other ∈ later, other.pull.answer = none) ∧ run.legs.length = pulls
  /-- A step calls `create` where `creation` says, and nowhere else. -/
  called : ∀ log, CreationLog p log → ∀ stride ∈ run.strides,
    log stride.taken.world = log stride.world ++
      ((creation p cfg stride.before stride.world).map fun v => (p.create v).1).toList
  /-- There is no error if all candidates are sampled, or any could be. -/
  never : (∀ v, (p.create v).1 = none) ∨ (p.geneSet ≠ #[] ∧ 1 ≤ cfg.targetLength) →
    ∀ error, some (.error error) ∉ run.answers

/-- Where a first candidate was built, a candidate that need not be sampled is never in vain. -/
theorem not_refuses_of_session (h : session p cfg steps changes w = .ok run)
    (hsafe : (∀ v, (p.create v).1 = none) ∨ (p.geneSet ≠ #[] ∧ 1 ≤ cfg.targetLength))
    (stride : Stride ω Gene Fitness) (error : SearchError) : ¬stride.Refuses p cfg error := by
  rintro ⟨v, -, -, hrefused⟩
  rcases hsafe with hnone | ⟨hgenes, hlength⟩
  · obtain ⟨w', hstart, -⟩ := session_eq_ok h
    obtain ⟨-, first, hgen, -⟩ := start_eq_ok hstart
    exact not_unsampled_of_generate (hnone w) (congrArg Prod.fst hgen) hrefused
  · cases hrefused with
    | noGenes hempty => exact hgenes hempty
    | noLength _ hzero => omega

variable [Std.TransOrd Fitness]

/-- A step in a session fails exactly when it creates a candidate in vain, and spares the search. -/
theorem progress_of_refuses (h : session p cfg steps changes w = .ok run) :
    ∀ stride ∈ run.strides, ∀ error,
      (stride.taken.progress = .answered (.error error) ↔ stride.Refuses p cfg error) ∧
      (stride.taken.progress = .answered (.error error) →
        stride.taken.search.phase = .ended ∧ stride.before.Spared stride.taken.search) := by
  refine sound_strides h fun s w hs error => ⟨⟨fun hanswer => ?_, ?_⟩, fun hanswer => ?_⟩
  · obtain ⟨v, hcreation, hgen⟩ := ((step_turn p cfg s w).of_error hs.coherent hanswer).1
    exact ⟨v, hcreation, generate_error_iff.mp hgen⟩
  · rintro ⟨v, hcreation, hrefused⟩
    exact (step_turn p cfg s w).error_of_creation hcreation (generate_error_iff.mpr hrefused)
  · exact ((step_turn p cfg s w).of_error hs.coherent hanswer).2

/-- The same of a pull in a session, which fails with its last step. -/
theorem answer_of_refuses (h : session p cfg steps changes w = .ok run) :
    ∀ leg ∈ run.legs, ∃ before last, leg.strides = before ++ [last] ∧
      ∀ error, (leg.pull.answer = some (.error error) ↔ last.Refuses p cfg error) ∧
        (leg.pull.answer = some (.error error) →
          leg.pull.search.phase = .ended ∧ last.before.Spared leg.pull.search) := by
  intro leg hleg
  obtain ⟨before, last, hstrides, hends, hmem⟩ := exists_last_of_mem_legs h hleg
  refine ⟨before, last, hstrides, fun error => ?_⟩
  have hlast := progress_of_refuses h last hmem error
  rwa [hends.progress, Pull.progress_eq_answered, hends.search] at hlast

/-- What is logged of a step is the one call of `create` that `creation` foretells. -/
theorem log_of_creation (h : session p cfg steps changes w = .ok run)
    {log : ω → List (Option (List Gene))} (hlog : CreationLog p log) :
    ∀ stride ∈ run.strides, log stride.taken.world = log stride.world ++
      ((creation p cfg stride.before stride.world).map fun v => (p.create v).1).toList := by
  refine sound_strides h fun s w hs => ?_
  obtain ⟨calls, hpassage, -, hcreated⟩ := (step_turn p cfg s w).passage hs.recombines
  exact (hlog.passage hpassage).trans (by rw [hcreated]; rfl)

/--
**A search fails exactly when a candidate cannot be sampled, and loses nothing by it.** A pull of a
search that was started answers with an error if and only if its last step has called `create`, got
no genes, and could not sample any, with the error that tells why. That step leaves the pool, the
best, the history and the repertoire as they were, and every later pull is answered with nothing.
-/
theorem errors_exact (h : session p cfg steps changes w = .ok run) :
    Errors p cfg changes.length run := by
  have hpulls := answer_of_refuses h
  refine ⟨?_, ?_, ?_, fun log hlog => log_of_creation h hlog, ?_⟩
  · intro leg hleg
    obtain ⟨before, last, hstrides, hlast⟩ := hpulls leg hleg
    exact ⟨before, last, hstrides, fun error => (hlast error).1⟩
  · intro leg hleg before last error hstrides hanswer
    obtain ⟨before', last', hstrides', hlast⟩ := hpulls leg hleg
    obtain ⟨rfl, rfl⟩ := List.append_singleton_inj.mp (hstrides.symm.trans hstrides')
    exact ((hlast error).2 hanswer).2
  · intro earlier leg later error hlegs hanswer
    obtain ⟨before, last, -, hlast⟩ := hpulls leg (by simp [hlegs])
    exact silent_of_ended h hlegs ((hlast error).2 hanswer).1
  · intro hsafe error hanswer
    obtain ⟨leg, hleg, hanswer⟩ := List.mem_map.mp hanswer
    obtain ⟨before, last, -, hlast⟩ := hpulls leg hleg
    exact not_refuses_of_session h hsafe last error ((hlast error).1.mp hanswer)

/-- A script in which two equal parents meet and no candidate is left for the donor's slot. -/
def vainRefill : Journaled (World Random.Cycle Script) (Option (List Nat)) :=
  ⟨⟨⟨[0x80000000], []⟩, { candidates := [[5]] }⟩, []⟩

/-- The only candidate is announced; a donor cannot be replaced, and its slot is left as it was. -/
theorem errors_exact_vainRefill :
    ∃ run, session (scripted true).attested {} 3 [id, id, id] vainRefill = .ok run ∧
      run.answers = [announcement ⟨[5], 5, .create, 0⟩, some (.error .emptyGeneSet), none] ∧
      run.search.pool = #[⟨[5], 5, .create, 0⟩] ∧
      run.legs.map (·.pull.world.entries) = [[some [5]], [some [5], none], [some [5], none]] ∧
      Errors (scripted true).attested {} 3 run ∧
      ∀ stride ∈ run.strides, stride.taken.world.entries = stride.world.entries ++
        ((creation (scripted true).attested {} stride.before stride.world).map fun v =>
          ((scripted true).attested.create v).1).toList :=
  have h : session (scripted true).attested {} 3 [id, id, id] vainRefill = .ok _ := rfl
  have herrors := errors_exact h
  ⟨_, h, rfl, rfl, rfl, herrors, herrors.called _ (creationLog_attested (scripted true))⟩

end EvolutionarySearch.Search
