import Tidemark.Proofs.Operator.Running

/-! Inputs as seen from outside: which progress they announce, and at which progress each record
arrives. Both grow by one input at a time, as a run does. -/

namespace Tidemark

/-- A record and the progress at its arrival. -/
structure Arrival (κ ν : Type) where
  progress : Timestamp
  key : κ
  time : Timestamp
  payload : ν

namespace Input

variable {κ ν : Type}

/-- Progress after an input that came at progress `p`. -/
def progress (p : Timestamp) : Input κ ν → Timestamp
  | .record .. => p
  | .advance q => max p q
  | .watermark w => max p w.timestamp

/-- The record of an input that came at progress `p`, if it brings one. -/
def arrival? (p : Timestamp) : Input κ ν → Option (Arrival κ ν)
  | .record _ key t v => some ⟨p, key, t, v⟩
  | _ => none

/-- The greatest progress that the inputs announce. -/
def progressAfter (inputs : List (Input κ ν)) : Timestamp := inputs.foldl progress .first

/-- The records of the inputs, in order, from progress `p` on. -/
def arrivalsFrom (p : Timestamp) : List (Input κ ν) → List (Arrival κ ν)
  | [] => []
  | i :: inputs => (i.arrival? p).toList ++ arrivalsFrom (i.progress p) inputs

/-- The records of the inputs, in order. -/
def arrivals (inputs : List (Input κ ν)) : List (Arrival κ ν) := arrivalsFrom .first inputs

theorem progressAfter_snoc (inputs : List (Input κ ν)) (i : Input κ ν) :
    progressAfter (inputs ++ [i]) = i.progress (progressAfter inputs) := by
  simp [progressAfter]

theorem arrivalsFrom_append (p : Timestamp) (inputs rest : List (Input κ ν)) :
    arrivalsFrom p (inputs ++ rest) =
      arrivalsFrom p inputs ++ arrivalsFrom (inputs.foldl progress p) rest := by
  induction inputs generalizing p with
  | nil => rfl
  | cons i inputs ih =>
    rw [List.cons_append, arrivalsFrom, arrivalsFrom, ih, List.append_assoc, List.foldl_cons]

theorem arrivals_snoc (inputs : List (Input κ ν)) (i : Input κ ν) :
    arrivals (inputs ++ [i]) = arrivals inputs ++ (i.arrival? (progressAfter inputs)).toList := by
  rw [arrivals, arrivalsFrom_append, arrivalsFrom, arrivalsFrom, List.append_nil]
  rfl

theorem progress_of_lt {p q : Timestamp} (h : p < q) :
    (Input.advance q : Input κ ν).progress p = q := by
  show (if p ≤ q then q else p) = q
  rw [if_pos (Int64.le_of_lt h)]

theorem progress_of_le {p q : Timestamp} (h : ¬ p < q) :
    (Input.advance q : Input κ ν).progress p = p := by
  have hle : q ≤ p := Int64.not_lt.1 h
  show (if p ≤ q then q else p) = p
  split
  · next hpq => exact Int64.le_antisymm hle hpq
  · rfl

variable [Encoding κ]

theorem faithful_of_arrivalsFrom {inputs : List (Input κ ν)} (h : ∀ i ∈ inputs, i.Plain)
    (p : Timestamp) : ∀ a ∈ arrivalsFrom p inputs, Encoding.Faithful a.key := by
  induction inputs generalizing p with
  | nil => simp [arrivalsFrom]
  | cons i inputs ih =>
    intro a ha
    rcases List.mem_append.1 ha with ha | ha
    · cases i with
      | record now key t v =>
        have he : a = ⟨p, key, t, v⟩ := by simpa [arrival?] using ha
        rw [he]
        exact h (.record now key t v) (by simp)
      | advance q => simp [arrival?] at ha
      | watermark w => simp [arrival?] at ha
    · exact ih (fun j hj => h j (by simp [hj])) _ a ha

end Input

namespace Job

variable {κ ν α ω : Type} [Encoding κ] [Encoding α] (job : Job κ ν α ω)

theorem after_snoc (o : Operator κ α ω) (inputs : List (Input κ ν)) (i : Input κ ν) :
    job.after o (inputs ++ [i]) = (job.take i).after (job.after o inputs) := by
  simp [Job.after]

theorem answers_snoc (o : Operator κ α ω) (inputs : List (Input κ ν)) (i : Input κ ν) :
    job.answers o (inputs ++ [i]) =
      job.answers o inputs ++ [(job.take i).answer (job.after o inputs)] := by
  induction inputs generalizing o with
  | nil => rfl
  | cons j inputs ih =>
    rw [List.cons_append, answers, answers, ih]
    rfl

variable {job} {o o' : Operator κ α ω} {now t : Timestamp} {key : κ} {v : ν}

omit [Encoding κ] [Encoding α] in
/-- In event time a record is stamped with its own time. -/
theorem stamp_event (hdomain : job.settings.val.domain = .event) (now t : Timestamp) :
    job.stamp now t = t := by
  rw [stamp, hdomain]

theorem take_of_feed_ok {x : Outcome} (h : job.feed now key t v o = .ok x o') :
    job.take (.record now key t v) o = .ok (.outcome x) o' := by
  show EStateM.map _ _ o = _
  rw [EStateM.map, h]

theorem take_of_feed_error {e : Error} (h : job.feed now key t v o = .error e o') :
    job.take (.record now key t v) o = .error e o' := by
  show EStateM.map _ _ o = _
  rw [EStateM.map, h]

theorem not_isDropped_of_announcement {i : Input κ ν} (hi : ∀ q, i.arrival? q = none)
    (o : Operator κ α ω) : Answer.isDropped ((job.take i).answer o) = false := by
  cases i with
  | record now key t v => cases hi .first
  | advance p =>
    rw [take, Command.answer_map]
    cases (job.advance p).answer o <;> rfl
  | watermark w =>
    rw [take, Command.answer_map]
    cases (job.watermark w).answer o <;> rfl

end Job

end Tidemark
