import Armature.Proofs.Palette
import Armature.Proofs.StageUpdate
import Mathlib.Data.List.Induction

/-!
# What readers see

A stage is at work in small steps (`Session`): its owner changes it, begins an update, updates one actor after the other,
and publishes all palettes in one step. Between any two of these steps any number of readers may ask. At every point of
every run they see the frame of the last update that has been completed, whole and unmixed
(`Session.readers_see_lastUpdate`): nothing of the update that is under way, nothing of an actor that has come since, and
nothing ever again of an actor that was gone when an update was completed.
-/

namespace Armature

variable {α : Type}

/-- A stage at work, with the update that is under way, if any: its timestep and the actors that still have to be
    updated. -/
structure Session (α : Type) where
  stage : Stage α
  underway : Option (α × List (ActorKey × Actor α))

/-- What happens, one after the other. -/
inductive Event (α : Type) : Type 1
  | change (change : Stage.Change α)
  | startUpdate (timestep : α)
  | updateNext
  | publish
  /-- One of the readers asks. -/
  | read {β : Type} (reader : Nat) (inquiry : Inquiry α β)

namespace Session

/-- A session that begins, without actors. -/
def start (settings : Settings α) : Session α := ⟨.ofSettings settings, none⟩

variable [Scalar α]

/-- The session after an event, if it can happen then. The owner has to complete an update before anything else; readers
    may ask at any time. -/
def next? (session : Session α) : Event α → Option (Session α)
  | .change change =>
    match session.underway with
    | none => some ⟨change.run session.stage, none⟩
    | some _ => none
  | .startUpdate timestep =>
    match session.underway with
    | none => some ⟨session.stage, some (timestep, session.stage.actors.toList)⟩
    | some _ => none
  | .updateNext =>
    match session.underway with
    | some (timestep, entry :: entries) => some ⟨session.stage.updateActor timestep entry, some (timestep, entries)⟩
    | _ => none
  | .publish =>
    match session.underway with
    | some (_, []) => some ⟨session.stage.publish, none⟩
    | _ => none
  | .read _ _ => some session

/-- The session after a run of events, if they can happen in this order. -/
def run? (session : Session α) (events : List (Event α)) : Option (Session α) := events.foldlM next? session

variable {session next : Session α} {event : Event α} {events : List (Event α)}

theorem run?_cons_eq_some : session.run? (event :: events) = some next ↔
    ∃ mid, session.next? event = some mid ∧ mid.run? events = some next :=
  Option.bind_eq_some_iff

theorem run?_append_eq_some {before after : List (Event α)} : session.run? (before ++ after) = some next ↔
    ∃ mid, session.run? before = some mid ∧ mid.run? after = some next := by
  rw [run?, List.foldlM_append]
  exact Option.bind_eq_some_iff

/-- What every event of a run keeps holds after the run. -/
theorem run?_induction {p : Session α → Prop} (h : p session)
    (hstep : ∀ event ∈ events, ∀ before after : Session α, before.next? event = some after → p before → p after)
    (hrun : session.run? events = some next) : p next := by
  induction events generalizing session with
  | nil =>
    obtain rfl := Option.some.inj hrun
    exact h
  | cons event events ih =>
    obtain ⟨hevent, hevents⟩ := List.forall_mem_cons.1 hstep
    obtain ⟨mid, hmid, hrun⟩ := run?_cons_eq_some.1 hrun
    exact ih (hevent session mid hmid h) hevents hrun

/-! When each event can happen, and what comes of it. -/

theorem next?_change_eq_some {change : Stage.Change α} (h : session.next? (.change change) = some next) :
    session.underway = none ∧ next = ⟨change.run session.stage, none⟩ := by
  cases hunderway : session.underway with
  | none => exact ⟨rfl, by simpa [next?, hunderway] using h.symm⟩
  | some => simp [next?, hunderway] at h

theorem next?_startUpdate_eq_some {timestep : α} (h : session.next? (.startUpdate timestep) = some next) :
    session.underway = none ∧ next = ⟨session.stage, some (timestep, session.stage.actors.toList)⟩ := by
  cases hunderway : session.underway with
  | none => exact ⟨rfl, by simpa [next?, hunderway] using h.symm⟩
  | some => simp [next?, hunderway] at h

theorem next?_updateNext_eq_some (h : session.next? .updateNext = some next) :
    ∃ timestep entry entries, session.underway = some (timestep, entry :: entries) ∧
      next = ⟨session.stage.updateActor timestep entry, some (timestep, entries)⟩ := by
  match hunderway : session.underway with
  | none => simp [next?, hunderway] at h
  | some (_, []) => simp [next?, hunderway] at h
  | some (timestep, entry :: entries) =>
    exact ⟨timestep, entry, entries, rfl, by simpa [next?, hunderway] using h.symm⟩

theorem next?_publish_eq_some (h : session.next? .publish = some next) :
    ∃ timestep, session.underway = some (timestep, []) ∧ next = ⟨session.stage.publish, none⟩ := by
  match hunderway : session.underway with
  | none => simp [next?, hunderway] at h
  | some (timestep, []) => exact ⟨timestep, rfl, by simpa [next?, hunderway] using h.symm⟩
  | some (_, _ :: _) => simp [next?, hunderway] at h

theorem next?_read_eq_some {β : Type} {reader : Nat} {inquiry : Inquiry α β}
    (h : session.next? (.read reader inquiry) = some next) : next = session :=
  (Option.some.inj h).symm

/-! ## The steps of an update -/

/-- The update of a stage has come so far. -/
def InUpdate (opened : Stage α) (timestep : α) (session : Session α) : Prop :=
  ∃ done entries, opened.actors.toList = done ++ entries ∧
    session = ⟨done.foldl (Stage.updateActor timestep) opened, some (timestep, entries)⟩

theorem inUpdate_of_startUpdate {timestep : α} (h : session.next? (.startUpdate timestep) = some next) :
    InUpdate session.stage timestep next :=
  ⟨[], session.stage.actors.toList, rfl, (next?_startUpdate_eq_some h).2⟩

theorem InUpdate.next? {opened : Stage α} {timestep : α} (h : InUpdate opened timestep session)
    (hevent : event ≠ .publish) (hnext : session.next? event = some next) : InUpdate opened timestep next := by
  obtain ⟨done, entries, hlist, rfl⟩ := h
  cases event with
  | change => cases (next?_change_eq_some hnext).1
  | startUpdate => cases (next?_startUpdate_eq_some hnext).1
  | updateNext =>
    obtain ⟨_, entry, entries, hunderway, rfl⟩ := next?_updateNext_eq_some hnext
    cases hunderway
    refine ⟨done ++ [entry], entries, by simp [hlist], ?_⟩
    rw [List.foldl_append]
    rfl
  | publish => exact absurd rfl hevent
  | read =>
    obtain rfl := next?_read_eq_some hnext
    exact ⟨done, entries, hlist, rfl⟩

/-- An update can be completed when all actors have been updated, and the steps make up the update as a whole. -/
theorem InUpdate.publish {opened : Stage α} {timestep : α} (h : InUpdate opened timestep session)
    (hnext : session.next? .publish = some next) : next = ⟨opened.update timestep, none⟩ := by
  obtain ⟨done, entries, hlist, rfl⟩ := h
  obtain ⟨_, hunderway, rfl⟩ := next?_publish_eq_some hnext
  cases hunderway
  rw [List.append_nil] at hlist
  rw [Stage.update, hlist]

theorem InUpdate.run? {opened : Stage α} {timestep : α} (h : InUpdate opened timestep session)
    (hevents : .publish ∉ events) (hrun : session.run? events = some next) : InUpdate opened timestep next := by
  refine run?_induction h (fun event hmem before after hnext hbefore => ?_) hrun
  exact hbefore.next? (fun heq => hevents (heq ▸ hmem)) hnext

theorem run?_replicate_updateNext (stage : Stage α) (timestep : α) (entries : List (ActorKey × Actor α)) :
    run? ⟨stage, some (timestep, entries)⟩ (List.replicate entries.length .updateNext) =
      some ⟨entries.foldl (Stage.updateActor timestep) stage, some (timestep, [])⟩ := by
  induction entries generalizing stage with
  | nil => rfl
  | cons entry entries ih => exact run?_cons_eq_some.2 ⟨_, rfl, ih _⟩

/-- Between two updates there is always a way through the next one. -/
theorem run?_update (stage : Stage α) (timestep : α) :
    run? ⟨stage, none⟩ (.startUpdate timestep ::
      (List.replicate stage.actors.toList.length .updateNext ++ [.publish])) = some ⟨stage.update timestep, none⟩ := by
  refine run?_cons_eq_some.2 ⟨⟨stage, some (timestep, stage.actors.toList)⟩, rfl, ?_⟩
  exact run?_append_eq_some.2 ⟨_, run?_replicate_updateNext stage timestep stage.actors.toList, rfl⟩

/-! ## What holds at every point -/

/-- A session is between updates, or on the way from a stage between updates. -/
def Sound (settings : Settings α) (session : Session α) : Prop :=
  ∃ opened : Stage α, opened.Sound settings ∧
    (session = ⟨opened, none⟩ ∨ ∃ timestep, InUpdate opened timestep session)

theorem sound_start (settings : Settings α) : (start settings).Sound settings :=
  ⟨_, Stage.sound_ofSettings settings, .inl rfl⟩

variable {settings : Settings α}

theorem Sound.next? (h : session.Sound settings) (hnext : session.next? event = some next) :
    next.Sound settings := by
  obtain ⟨opened, hopened, rfl | ⟨timestep, hupdate⟩⟩ := h
  · cases event with
    | change change =>
      obtain ⟨-, rfl⟩ := next?_change_eq_some hnext
      exact ⟨_, hopened.change change, .inl rfl⟩
    | startUpdate timestep => exact ⟨opened, hopened, .inr ⟨timestep, inUpdate_of_startUpdate hnext⟩⟩
    | updateNext => cases hnext
    | publish => cases hnext
    | read =>
      obtain rfl := next?_read_eq_some hnext
      exact ⟨opened, hopened, .inl rfl⟩
  · by_cases hevent : event = .publish
    · subst hevent
      exact ⟨_, hopened.update timestep, .inl (hupdate.publish hnext)⟩
    · exact ⟨opened, hopened, .inr ⟨timestep, hupdate.next? hevent hnext⟩⟩

theorem Sound.run? (h : session.Sound settings) (hrun : session.run? events = some next) : next.Sound settings :=
  run?_induction h (fun _ _ _ _ hnext hbefore => hbefore.next? hnext) hrun

theorem Sound.stage (h : session.Sound settings) (hidle : session.underway = none) : session.stage.Sound settings := by
  obtain ⟨opened, hopened, rfl | ⟨timestep, done, entries, -, rfl⟩⟩ := h
  · exact hopened
  · cases hidle

/-- Nothing but a publication changes what readers see. -/
theorem published_next? (hevent : event ≠ .publish) (hnext : session.next? event = some next) :
    next.stage.published = session.stage.published := by
  cases event with
  | change change =>
    obtain ⟨-, rfl⟩ := next?_change_eq_some hnext
    exact session.stage.published_change change
  | startUpdate timestep =>
    obtain ⟨-, rfl⟩ := next?_startUpdate_eq_some hnext
    rfl
  | updateNext =>
    obtain ⟨timestep, entry, entries, -, rfl⟩ := next?_updateNext_eq_some hnext
    exact session.stage.published_updateActor timestep entry
  | publish => exact absurd rfl hevent
  | read => rw [next?_read_eq_some hnext]

theorem published_run? (hevents : .publish ∉ events) (hrun : session.run? events = some next) :
    next.stage.published = session.stage.published := by
  refine run?_induction (p := fun s => s.stage.published = session.stage.published) rfl
    (fun event hmem before after hnext hbefore => ?_) hrun
  exact (published_next? (fun heq => hevents (heq ▸ hmem)) hnext).trans hbefore

/-! ## Actors that come and go -/

/-- An actor that is inserted is new to readers. -/
theorem Sound.publishedPalette?_nextKey (h : session.Sound settings) (hidle : session.underway = none) :
    session.stage.publishedPalette? session.stage.actors.nextKey = none := by
  cases hpalette : session.stage.publishedPalette? session.stage.actors.nextKey with
  | none => rfl
  | some palette => exact absurd ((h.stage hidle).issued _ palette hpalette) (Nat.lt_irrefl _)

/-- An actor has been there, and is there no more. -/
structure Gone (settings : Settings α) (key : ActorKey) (session : Session α) : Prop where
  sound : session.Sound settings
  issued : key.id < session.stage.actors.issued
  gone : session.stage.get? key = none

theorem Gone.next? {key : ActorKey} (h : Gone settings key session) (hnext : session.next? event = some next) :
    Gone settings key next := by
  obtain ⟨hsound, hissued, hnone⟩ := h
  have hsound := hsound.next? hnext
  cases event with
  | change change =>
    obtain ⟨-, rfl⟩ := next?_change_eq_some hnext
    exact ⟨hsound, Nat.lt_of_lt_of_le hissued (session.stage.issued_le_change change),
      Stage.get?_change_of_gone hissued hnone change⟩
  | startUpdate timestep =>
    obtain ⟨-, rfl⟩ := next?_startUpdate_eq_some hnext
    exact ⟨hsound, hissued, hnone⟩
  | updateNext =>
    obtain ⟨timestep, entry, entries, -, rfl⟩ := next?_updateNext_eq_some hnext
    exact ⟨hsound, hissued, Stage.get?_updateActor_of_gone timestep entry hnone⟩
  | publish =>
    obtain ⟨timestep, -, rfl⟩ := next?_publish_eq_some hnext
    exact ⟨hsound, hissued, hnone⟩
  | read =>
    obtain rfl := next?_read_eq_some hnext
    exact ⟨hsound, hissued, hnone⟩

/-- A publication takes away what readers see of an actor that is gone. -/
theorem Gone.publishedPalette?_publish {key : ActorKey} (h : Gone settings key session)
    (hnext : session.next? .publish = some next) : next.stage.publishedPalette? key = none := by
  obtain ⟨opened, hopened, rfl | ⟨timestep, hupdate⟩⟩ := h.sound
  · cases hnext
  · have hnone := (h.next? hnext).gone
    obtain rfl := hupdate.publish hnext
    rw [Stage.get?_update, Option.map_eq_none_iff] at hnone
    rw [Stage.publishedPalette?, Stage.published_update hopened.tidy, Stage.getElem?_frame, hnone]
    rfl

/-- From the first publication on readers see nothing more of an actor that is gone. -/
theorem Gone.publishedPalette?_run? {key : ActorKey} (h : Gone settings key session) (hevents : .publish ∈ events)
    (hrun : session.run? events = some next) : next.stage.publishedPalette? key = none := by
  obtain ⟨before, after, rfl⟩ := List.append_of_mem hevents
  obtain ⟨mid, hmid, hrun⟩ := run?_append_eq_some.1 hrun
  obtain ⟨published, hpublished, hrun⟩ := run?_cons_eq_some.1 hrun
  have hgone : Gone settings key mid := run?_induction h (fun _ _ _ _ hnext hbefore => hbefore.next? hnext) hmid
  refine (run?_induction (p := fun s => Gone settings key s ∧ s.stage.publishedPalette? key = none)
    ⟨hgone.next? hpublished, hgone.publishedPalette?_publish hpublished⟩ ?_ hrun).2
  rintro event - earlier later hnext ⟨hgone, hnone⟩
  refine ⟨hgone.next? hnext, ?_⟩
  by_cases hevent : event = .publish
  · subst hevent
    exact hgone.publishedPalette?_publish hnext
  · rw [Stage.publishedPalette?, published_next? hevent hnext]
    exact hnone

/-! ## The last update -/

/-- The last update that a run has completed: it began with `opened`, between two updates. -/
def LastUpdate (settings : Settings α) (events : List (Event α)) (opened : Stage α) (timestep : α) : Prop :=
  ∃ before during after, events = before ++ .startUpdate timestep :: (during ++ .publish :: after) ∧
    .publish ∉ during ∧ .publish ∉ after ∧ (start settings).run? before = some ⟨opened, none⟩

/-- A run has begun an update, and has completed none since. -/
def Begun (settings : Settings α) (events : List (Event α)) : Prop :=
  ∃ before timestep during opened, events = before ++ .startUpdate timestep :: during ∧ .publish ∉ during ∧
    (start settings).run? before = some ⟨opened, none⟩

theorem Begun.concat (h : Begun settings events) (hevent : event ≠ .publish) : Begun settings (events ++ [event]) := by
  obtain ⟨before, timestep, during, opened, rfl, hduring, hrun⟩ := h
  refine ⟨before, timestep, during ++ [event], opened, by simp, ?_, hrun⟩
  rw [List.mem_append, List.mem_singleton, not_or]
  exact ⟨hduring, Ne.symm hevent⟩

theorem Begun.publish (h : Begun settings events) :
    ∃ opened timestep, LastUpdate settings (events ++ [.publish]) opened timestep := by
  obtain ⟨before, timestep, during, opened, rfl, hduring, hrun⟩ := h
  exact ⟨opened, timestep, before, during, [], by simp, hduring, List.not_mem_nil, hrun⟩

theorem LastUpdate.concat {opened : Stage α} {timestep : α} (h : LastUpdate settings events opened timestep)
    (hevent : event ≠ .publish) : LastUpdate settings (events ++ [event]) opened timestep := by
  obtain ⟨before, during, after, rfl, hduring, hafter, hrun⟩ := h
  refine ⟨before, during, after ++ [event], by simp, hduring, ?_, hrun⟩
  rw [List.mem_append, List.mem_singleton, not_or]
  exact ⟨hafter, Ne.symm hevent⟩

/-- An update that is under way has begun, and a run with a publication has completed an update. -/
theorem exists_lastUpdate (hrun : (start settings).run? events = some session) :
    (session.underway ≠ none → Begun settings events) ∧
    (.publish ∈ events → ∃ opened timestep, LastUpdate settings events opened timestep) := by
  induction events using List.reverseRecOn generalizing session with
  | nil =>
    obtain rfl := Option.some.inj hrun
    exact ⟨fun h => absurd rfl h, fun h => absurd h List.not_mem_nil⟩
  | append_singleton events event ih =>
    obtain ⟨mid, hmid, hrun⟩ := run?_append_eq_some.1 hrun
    obtain ⟨next, hnext, hrun⟩ := run?_cons_eq_some.1 hrun
    obtain rfl := Option.some.inj hrun
    obtain ⟨hbegun, hlast⟩ := ih hmid
    have hearlier : event ≠ .publish → .publish ∈ events ++ [event] →
        ∃ opened timestep, LastUpdate settings (events ++ [event]) opened timestep := by
      intro hevent hmem
      rw [List.mem_append, List.mem_singleton] at hmem
      obtain ⟨opened, timestep, h⟩ := hlast (hmem.resolve_right (Ne.symm hevent))
      exact ⟨opened, timestep, h.concat hevent⟩
    cases event with
    | change change =>
      obtain ⟨-, rfl⟩ := next?_change_eq_some hnext
      exact ⟨fun h => absurd rfl h, hearlier (by simp)⟩
    | startUpdate timestep =>
      obtain ⟨hidle, -⟩ := next?_startUpdate_eq_some hnext
      refine ⟨fun _ => ⟨events, timestep, [], mid.stage, rfl, List.not_mem_nil, ?_⟩, hearlier (by simp)⟩
      rw [hmid, ← hidle]
    | updateNext =>
      obtain ⟨timestep, entry, entries, hunderway, rfl⟩ := next?_updateNext_eq_some hnext
      exact ⟨fun _ => (hbegun (by simp [hunderway])).concat (by simp), hearlier (by simp)⟩
    | publish =>
      obtain ⟨timestep, hunderway, rfl⟩ := next?_publish_eq_some hnext
      exact ⟨fun h => absurd rfl h, fun _ => (hbegun (by simp [hunderway])).publish⟩
    | read =>
      obtain rfl := next?_read_eq_some hnext
      exact ⟨fun h => (hbegun h).concat (by simp), hearlier (by simp)⟩

/-- Readers see the frame of an update: palettes of the actors that were there when it began, and of no others, each as
    the update has written it and as the actor computes it on its own. -/
structure ShowsFrame (published : PaletteMap α) (opened : Stage α) (timestep : α) : Prop where
  written : published = (opened.update timestep).written
  palette : ∀ key, Inquiry.answer published (.palette key) =
    (opened.get? key).map fun actor => (actor.update opened.settings timestep).1
  withPalette : ∀ {β : Type} (key : ActorKey) (f : Palette α → β), Inquiry.answer published (.withPalette key f) =
    (opened.get? key).map fun actor => f (actor.update opened.settings timestep).1
  snapshot : Inquiry.answer published .snapshot = opened.frame timestep
  size : Inquiry.answer published .size = opened.size
  isEmpty : Inquiry.answer published .isEmpty = true ↔ opened.size = 0

theorem showsFrame_update {opened : Stage α} (htidy : opened.Tidy) (timestep : α) :
    ShowsFrame (opened.update timestep).published opened timestep := by
  have hsize : (opened.frame timestep).size = opened.size := Std.ExtTreeMap.size_map
  rw [Stage.published_update htidy]
  exact {
    written := (Stage.written_update htidy timestep).symm
    palette := opened.getElem?_frame timestep
    withPalette := fun key f => by
      rw [Inquiry.answer, opened.getElem?_frame, Option.map_map]
      rfl
    snapshot := rfl
    size := hsize
    isEmpty := by
      rw [Inquiry.answer, Std.ExtTreeMap.isEmpty_eq_size_beq_zero, hsize]
      exact beq_iff_eq }

theorem LastUpdate.showsFrame {opened : Stage α} {timestep : α} (h : LastUpdate settings events opened timestep)
    (hrun : (start settings).run? events = some session) : ShowsFrame session.stage.published opened timestep := by
  obtain ⟨before, during, after, rfl, hduring, hafter, hopened⟩ := h
  obtain ⟨_, hmid, hrun⟩ := run?_append_eq_some.1 hrun
  obtain rfl := Option.some.inj (hopened.symm.trans hmid)
  obtain ⟨begun, hbegun, hrun⟩ := run?_cons_eq_some.1 hrun
  obtain ⟨ready, hready, hrun⟩ := run?_append_eq_some.1 hrun
  obtain ⟨completed, hcompleted, hrun⟩ := run?_cons_eq_some.1 hrun
  obtain rfl := ((inUpdate_of_startUpdate hbegun).run? hduring hready).publish hcompleted
  rw [published_run? hafter hrun]
  exact showsFrame_update (((sound_start settings).run? hopened).stage rfl).tidy timestep

/-- Readers see exactly the palettes of the last update that has been completed, at every point of every run, and nothing
    before the first. An actor that has been inserted since is not seen, one that has been removed is seen as before until
    the next update is completed and never again. What the owner sees between updates readers see as well. -/
theorem readers_see_lastUpdate (hrun : (start settings).run? events = some session) :
    (.publish ∉ events → session.stage.published = ∅) ∧
    (.publish ∈ events → ∃ opened timestep, LastUpdate settings events opened timestep) ∧
    (∀ opened timestep, LastUpdate settings events opened timestep →
      ShowsFrame session.stage.published opened timestep) ∧
    (∀ before actor after mid, events = before ++ .change (.insert actor) :: after →
      (start settings).run? before = some mid → .publish ∉ after →
      session.stage.publishedPalette? (mid.stage.insert actor).1 = none) ∧
    (∀ before key after mid, events = before ++ .change (.remove key) :: after →
      (start settings).run? before = some mid → mid.stage.get? key ≠ none →
      (.publish ∉ after → session.stage.publishedPalette? key = mid.stage.publishedPalette? key) ∧
      (.publish ∈ after → session.stage.publishedPalette? key = none)) ∧
    (session.underway = none → ∀ key palette, session.stage.writtenPalette? key = some palette →
      session.stage.publishedPalette? key = some palette) := by
  refine ⟨fun hevents => published_run? hevents hrun, (exists_lastUpdate hrun).2, fun _ _ h => h.showsFrame hrun, ?_, ?_,
    fun hidle => (((sound_start settings).run? hrun).stage hidle).shown⟩
  · rintro before actor after mid rfl hmid hafter
    obtain ⟨_, hmid', hrun⟩ := run?_append_eq_some.1 hrun
    obtain rfl := Option.some.inj (hmid.symm.trans hmid')
    obtain ⟨inserted, hinserted, hrun⟩ := run?_cons_eq_some.1 hrun
    rw [Stage.publishedPalette?, published_run? hafter hrun, published_next? (by simp) hinserted]
    exact ((sound_start settings).run? hmid).publishedPalette?_nextKey (next?_change_eq_some hinserted).1
  · rintro before key after mid rfl hmid hlive
    obtain ⟨_, hmid', hrun⟩ := run?_append_eq_some.1 hrun
    obtain rfl := Option.some.inj (hmid.symm.trans hmid')
    obtain ⟨removed, hremoved, hrun⟩ := run?_cons_eq_some.1 hrun
    refine ⟨fun hafter => ?_, fun hafter => ?_⟩
    · rw [Stage.publishedPalette?, published_run? hafter hrun, published_next? (by simp) hremoved]
      rfl
    · have hsound := ((sound_start settings).run? hmid).next? hremoved
      obtain ⟨actor, hactor⟩ := Option.ne_none_iff_exists'.1 hlive
      obtain ⟨-, rfl⟩ := next?_change_eq_some hremoved
      have hissued := Nat.lt_of_lt_of_le (Stage.lt_issued_of_get? hactor) (mid.stage.issued_le_change (.remove key))
      have hgone : Gone settings key ⟨(Stage.Change.remove key).run mid.stage, none⟩ :=
        ⟨hsound, hissued, by rw [Stage.get?_remove, if_pos rfl]⟩
      exact hgone.publishedPalette?_run? hafter hrun

end Session

/-- An actor that plays a clip. -/
def dancer : Actor Binary32 := .ofPlayer oneBone (.ofClip (some hop))

namespace Session

/-- A stage with the actor alone. -/
def solo : Stage Binary32 := ((Stage.ofSettings .default).insert dancer).2

/-- An actor is seen as it was updated last, also after it has been removed. -/
theorem readers_see_lastUpdate_dancer :
    ∃ session, (start .default).run? [.change (.insert dancer), .startUpdate 1, .updateNext, .publish, .startUpdate 1,
        .updateNext, .publish, .change (.remove ⟨0⟩), .read 0 (.palette ⟨0⟩)] = some session ∧
      session.stage.get? ⟨0⟩ = none ∧
      session.stage.publishedPalette? ⟨0⟩ = some ((dancer.update .default 1).2.update .default 1).1 ∧
      session.stage.publishedPalette? ⟨0⟩ ≠ some (dancer.update .default 1).1 := by
  have hopened : (start .default).run? [.change (.insert dancer), .startUpdate 1, .updateNext, .publish] =
      some ⟨solo.update 1, none⟩ := run?_cons_eq_some.2 ⟨⟨solo, none⟩, rfl, run?_update solo 1⟩
  have hrest : run? ⟨solo.update 1, none⟩ [.startUpdate 1, .updateNext, .publish, .change (.remove ⟨0⟩),
      .read 0 (.palette ⟨0⟩)] = some ⟨(Stage.Change.remove ⟨0⟩).run ((solo.update 1).update 1), none⟩ :=
    run?_append_eq_some.2 ⟨_, run?_update (solo.update 1) 1, rfl⟩
  have hrun := run?_append_eq_some.2 ⟨_, hopened, hrest⟩
  have hlast := (readers_see_lastUpdate hrun).2.2.1 (solo.update 1) 1
    ⟨_, [.updateNext], [.change (.remove ⟨0⟩), .read 0 (.palette ⟨0⟩)], rfl, by simp, by simp, hopened⟩
  have hpalette : ((Stage.Change.remove ⟨0⟩).run ((solo.update 1).update 1)).publishedPalette? ⟨0⟩ =
      some ((dancer.update .default 1).2.update .default 1).1 := by
    refine (hlast.palette ⟨0⟩).trans ?_
    rw [Stage.get?_update]
    rfl
  have hmoved : ((dancer.update .default 1).2.update .default 1).1 ≠ (dancer.update .default 1).1 := by
    decide +kernel
  exact ⟨_, hrun, by rw [Stage.get?_remove, if_pos rfl], hpalette,
    fun hsame => hmoved (Option.some.inj (hpalette.symm.trans hsame))⟩

end Session
end Armature
