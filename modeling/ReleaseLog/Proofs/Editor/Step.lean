import ReleaseLog.Proofs.Editor.Messages

/-!
# What one message does

A session that runs takes in what a notification says. Some requests open, stop and end it. Every
other message leaves it alone.
-/

namespace ReleaseLog.Editor

/-! ## Names of messages -/

theorem Method.ofName_of_mem {name : String} {method : Method} (h : (name, method) ∈ supported) :
    ofName name.toList = method := by
  simp only [supported, List.mem_cons, Prod.mk.injEq, List.not_mem_nil, or_false] at h
  rcases h with ⟨rfl, rfl⟩ | ⟨rfl, rfl⟩ | ⟨rfl, rfl⟩ | ⟨rfl, rfl⟩ | ⟨rfl, rfl⟩ | ⟨rfl, rfl⟩ |
    ⟨rfl, rfl⟩ | ⟨rfl, rfl⟩ <;> rfl

theorem Method.ofName_of_forall_ne {name : Text}
    (h : ∀ known ∈ supported.map (·.1), name ≠ known.toList) :
    (∃ needs, ofName name = .unsupported needs) ∨
      ofName name = .notification (fun _ _ => none) ∨ ofName name = .optional ∨
      ofName name = .unknown := by
  have hnone : supported.find? (fun entry => entry.1.toList == name) = none := by
    rw [List.find?_eq_none]
    intro entry he
    simpa using (h entry.1 (List.mem_map_of_mem he)).symm
  unfold ofName
  simp only [hnone]
  split
  · simp_all
  · exact .inl ⟨_, rfl⟩
  · split
    · exact .inr (.inl rfl)
    · split <;> simp

theorem Topic.method_mem (topic : Topic) : topic.method ∈ Method.supported.map (·.1) := by
  cases topic <;> simp [Topic.method, Method.supported]

/-! ## Phases -/

/-- The phase of a session after one more message. -/
def Phase.after (read? : Text → Option Uri) (p : Phase) (m : Message) : Phase :=
  if m.exits then .exited
  else if p = .fresh ∧ Opens read? m then .running
  else if p = .running ∧ m.ends then .stopped
  else p

section

variable {read? : Text → Option Uri} {p : Phase} {m : Message}

theorem Phase.after_of_ne (hi : m.method ≠ "initialize".toList)
    (hs : m.method ≠ "shutdown".toList) (hx : m.method ≠ "exit".toList) : p.after read? m = p := by
  have hexits : m.exits = false := decide_eq_false hx
  have hopens : ¬ Opens read? m := fun h => hi h.1
  have hends : m.ends = false := by
    rw [Message.ends, hexits, decide_eq_false hs]
    rfl
  simp [Phase.after, hexits, hopens, hends]

theorem Phase.after_eq_fresh_iff :
    p.after read? m = .fresh ↔ p = .fresh ∧ m.exits = false ∧ ¬ Opens read? m := by
  unfold Phase.after
  by_cases ho : Opens read? m <;> cases p <;> cases m.exits <;> cases m.ends <;> simp [ho]

theorem Phase.after_eq_running_iff :
    p.after read? m = .running ↔
      p = .fresh ∧ m.exits = false ∧ Opens read? m ∨ p = .running ∧ m.ends = false := by
  unfold Phase.after
  cases hx : m.exits with
  | true => simp [Message.ends, hx]
  | false => by_cases ho : Opens read? m <;> cases p <;> cases m.ends <;> simp [ho]

end

/-! ## One message -/

/-- What a session hears from a message: nothing, unless it runs. -/
def Session.hears? (s : Session) (m : Message) : Option Event :=
  if s.phase = .running then m.event? s.read? else none

/-- All that one message does to a session, and what the session tells on its own. -/
structure Received (s : Session) (m : Message) (r : Reaction) (t : Session) : Prop where
  rules : t.rules = s.rules
  reader : t.read? = s.read?
  phase : t.phase = s.phase.after s.read? m
  notices : r.notices = (s.hears? m).elim [] fun e => (s.apply e).1
  documents : t.documents = (s.hears? m).elim s.documents fun e => (s.apply e).2.documents

variable {s t : Session} {m : Message}

/-- Where nothing is heard, the documents stay. -/
theorem Received.unheard {r : Reaction} (hh : s.hears? m = none) (hn : r.notices = [])
    (hr : t.rules = s.rules) (ha : t.read? = s.read?) (hd : t.documents = s.documents)
    (hp : t.phase = s.phase.after s.read? m) : Received s m r t :=
  ⟨hr, ha, hp, by rw [hh, hn]; rfl, by rw [hh, hd]; rfl⟩

theorem Session.hears?_of_event? (he : m.event? s.read? = none) : s.hears? m = none := by
  rw [hears?, he, ite_self]

theorem Session.hears?_of_name {name : String} (hm : m.method = name.toList)
    (hn : ∀ topic : Topic, topic.method ≠ name) : s.hears? m = none := by
  apply hears?_of_event?
  apply Message.event?_of_ne
  intro topic h
  exact hn topic (String.toList_inj.mp (h.symm.trans hm))

namespace Session

/-- An event changes nothing but the documents. -/
theorem apply_eq (s : Session) (e : Event) :
    (s.apply e).2 = { s with documents := (s.apply e).2.documents } := by
  cases e with
  | changed uri version texts =>
      simp only [apply]
      split <;> rfl
  | _ => rfl

@[simp] theorem rules_apply (s : Session) (e : Event) : (s.apply e).2.rules = s.rules := by
  rw [apply_eq]

@[simp] theorem read?_apply (s : Session) (e : Event) : (s.apply e).2.read? = s.read? := by
  rw [apply_eq]

@[simp] theorem phase_apply (s : Session) (e : Event) : (s.apply e).2.phase = s.phase := by
  rw [apply_eq]

theorem notify_spec {event? : Json → Option Event}
    (hm : m.id = none → m.event? s.read? = m.params.bind event?)
    (hp : s.phase.after s.read? m = s.phase) :
    Received s m (s.notify m event?).1 (s.notify m event?).2 := by
  unfold notify
  by_cases hr : s.phase = .running
  · rw [if_pos hr]
    split
    · rename_i e hid he
      have hh : s.hears? m = some e := by rw [hears?, if_pos hr, hm hid, he]
      exact ⟨rules_apply s e, read?_apply s e, by rw [hp, phase_apply], by rw [hh]; rfl,
        by rw [hh]; rfl⟩
    · rename_i hn
      have hnone : m.event? s.read? = none := by
        cases hid : m.id with
        | some id => simp [Message.event?, hid]
        | none =>
            rw [hm hid]
            cases he : m.params.bind event? with
            | none => rfl
            | some e => exact (hn e hid he).elim
      exact .unheard (hears?_of_event? hnone) rfl rfl rfl rfl hp.symm
  · rw [if_neg hr]
    exact .unheard (if_neg hr) rfl rfl rfl rfl hp.symm

theorem start_spec (hm : m.method = "initialize".toList) :
    Received s m (s.start m).1 (s.start m).2 := by
  have hh : s.hears? m = none := hears?_of_name hm (by rintro ⟨⟩ <;> simp [Topic.method])
  have hexits : m.exits = false := by rw [Message.exits, hm]; rfl
  have hends : m.ends = false := by rw [Message.ends, hexits, hm]; rfl
  have hopens : Opens s.read? m ↔
      m.id.isSome = true ∧ m.params.any (Params.isStart s.read?) = true := by
    simp [Message.opens_iff, hm]
  unfold start
  by_cases hf : s.phase = .fresh
  · rw [if_pos hf]
    by_cases hp : m.params.any (Params.isStart s.read?) = true
    · rw [if_pos hp]
      cases hid : m.id.isSome with
      | true =>
          exact .unheard hh rfl rfl rfl rfl (by simp [Phase.after, hexits, hopens, hf, hid, hp])
      | false =>
          exact .unheard hh rfl rfl rfl rfl (by simp [Phase.after, hexits, hends, hopens, hid])
    · rw [if_neg hp]
      exact .unheard hh rfl rfl rfl rfl (by simp [Phase.after, hexits, hends, hopens, hp])
  · rw [if_neg hf]
    exact .unheard hh rfl rfl rfl rfl (by simp [Phase.after, hexits, hends, hf])

theorem shutdown_spec (hm : m.method = "shutdown".toList) :
    Received s m (s.shutdown m).1 (s.shutdown m).2 := by
  have hh : s.hears? m = none := hears?_of_name hm (by rintro ⟨⟩ <;> simp [Topic.method])
  have hexits : m.exits = false := by rw [Message.exits, hm]; rfl
  have hopens : ¬ Opens s.read? m := by simp [Opens, hm]
  have hends : m.ends = true := by simp [Message.ends, hm]
  unfold shutdown
  by_cases hr : s.phase = .running
  · rw [if_pos hr]
    exact .unheard hh rfl rfl rfl rfl (by simp [Phase.after, hexits, hopens, hends, hr])
  · rw [if_neg hr]
    exact .unheard hh rfl rfl rfl rfl (by simp [Phase.after, hexits, hopens, hr])

@[simp] theorem notices_answer (s : Session) (m : Message)
    (outcome : Json → Except Failure Result) : (s.answer m outcome).notices = [] := by
  unfold answer
  split <;> rfl

theorem receive_spec_of_known {name : String} {method : Method}
    (hx : s.phase ≠ .exited) (hmem : (name, method) ∈ Method.supported)
    (hm : m.method = name.toList) : Received s m (s.receive m).1 (s.receive m).2 := by
  have hp : ∀ {name : String}, m.method = name.toList →
      name ∉ ["initialize", "shutdown", "exit"] → s.phase.after s.read? m = s.phase := by
    intro name hm hn
    apply Phase.after_of_ne <;> (rw [hm]; intro h; simp [String.toList_inj.mp h] at hn)
  rw [receive, if_neg hx, hm, Method.ofName_of_mem hmem]
  simp only [Method.supported, List.mem_cons, Prod.mk.injEq, List.not_mem_nil, or_false] at hmem
  rcases hmem with ⟨rfl, rfl⟩ | ⟨rfl, rfl⟩ | ⟨rfl, rfl⟩ | ⟨rfl, rfl⟩ | ⟨rfl, rfl⟩ | ⟨rfl, rfl⟩ |
    ⟨rfl, rfl⟩ | ⟨rfl, rfl⟩
  · exact start_spec hm
  · exact shutdown_spec hm
  · exact .unheard (hears?_of_name hm (by rintro ⟨⟩ <;> simp [Topic.method])) rfl rfl rfl rfl
      (by simp [hm, Phase.after, Message.exits])
  · exact .unheard (hears?_of_name hm (by rintro ⟨⟩ <;> simp [Topic.method]))
      (notices_answer _ _ _) rfl rfl rfl (hp hm (by simp)).symm
  · exact notify_spec (Message.event?_of_method .ready · hm) (hp hm (by simp))
  · exact notify_spec (Message.event?_of_method .opened · hm) (hp hm (by simp))
  · exact notify_spec (Message.event?_of_method .changed · hm) (hp hm (by simp))
  · exact notify_spec (Message.event?_of_method .closed · hm) (hp hm (by simp))

theorem receive_spec (s : Session) (m : Message) :
    Received s m (s.receive m).1 (s.receive m).2 := by
  by_cases hx : s.phase = .exited
  · rw [receive, if_pos hx]
    exact .unheard (by simp [hears?, hx]) rfl rfl rfl rfl (by simp [Phase.after, hx])
  by_cases hs : ∃ known ∈ Method.supported.map (·.1), m.method = known.toList
  · obtain ⟨name, hname, hm⟩ := hs
    obtain ⟨⟨name, method⟩, hmem, rfl⟩ := List.mem_map.mp hname
    exact receive_spec_of_known hx hmem hm
  · have hs : ∀ known ∈ Method.supported.map (·.1), m.method ≠ known.toList :=
      fun known hk hm => hs ⟨known, hk, hm⟩
    have he : m.event? s.read? = none := Message.event?_of_ne fun topic => hs _ topic.method_mem
    have hh : s.hears? m = none := hears?_of_event? he
    have hp : s.phase.after s.read? m = s.phase :=
      Phase.after_of_ne (hs _ (by simp [Method.supported])) (hs _ (by simp [Method.supported]))
        (hs _ (by simp [Method.supported]))
    rw [receive, if_neg hx]
    rcases Method.ofName_of_forall_ne hs with ⟨needs, h⟩ | h | h | h <;> rw [h]
    · exact .unheard hh (notices_answer _ _ _) rfl rfl rfl hp.symm
    · refine notify_spec (fun _ => ?_) hp
      rw [he]
      cases m.params <;> rfl
    · exact .unheard hh rfl rfl rfl rfl hp.symm
    · exact .unheard hh rfl rfl rfl rfl hp.symm

end Session

end ReleaseLog.Editor
