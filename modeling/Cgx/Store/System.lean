import Cgx.Store.PruneSteps

open cgx.core disk

namespace cgx.store

/-- The store, the steps its lock holder has still to take, and the calls of `put_graph`
so far. -/
structure System (Bytes : Type) where
  disk : StoreDisk Bytes
  todo : List (StoreOp Bytes)
  puts : List PutCall

/-- What can happen next. A run that holds the lock can be killed before any of its
steps; a power loss ends every run. -/
inductive Event (Bytes : Type) where
  | put_graph (put : PutCall)
  | prune_graphs_except (listing : List Path) (keep : List String)
  | prune (listing : List Path) (live : List String) (aggressive : Bool)
  | op
  | kill
  | power_loss (left : StoreDisk Bytes)

namespace System

variable {Bytes : Type}

/-- A store that was just opened. -/
def opened : System Bytes where
  disk := ⟨fun _ => none, fun _ => [], fun e => (Layout.up Path e).isNone, fun _ => []⟩
  todo := []
  puts := []

variable [Inhabited Bytes] (c : Codec Bytes)

/-- The steps of a run are those of its function on the files it sees: while it holds
the lock no other run changes them. -/
inductive Step : System Bytes → Event Bytes → System Bytes → Prop
  | put_graph {s : System Bytes} (put : PutCall) : s.todo = [] →
      Step s (.put_graph put) { s with todo := put_log c s.disk.files put, puts := put :: s.puts }
  | prune_graphs_except {s : System Bytes} (listing : List Path) (keep : List String) : s.todo = [] →
      Lists s.disk.files listing →
        Step s (.prune_graphs_except listing keep)
          { s with todo := prune_graphs_log c s.disk.files listing keep }
  | prune {s : System Bytes} (listing : List Path) (live : List String) (aggressive : Bool) : s.todo = [] →
      Step s (.prune listing live aggressive)
        { s with todo := prune_log s.disk.files listing live aggressive }
  | op {s : System Bytes} {op : StoreOp Bytes} {rest : List (StoreOp Bytes)} : s.todo = op :: rest →
      Step s .op { s with disk := s.disk.step op, todo := rest }
  | kill {s : System Bytes} : Step s .kill { s with todo := [] }
  | power_loss {s : System Bytes} (left : StoreDisk Bytes) : Disk.Recovers s.disk left →
      Step s (.power_loss left) { s with disk := left, todo := [] }

/-- The states reached by runs whose steps all meet `ok`. -/
inductive Reached (ok : System Bytes → Event Bytes → Prop) : System Bytes → Prop
  | opened : Reached ok opened
  | step {s s' : System Bytes} {e : Event Bytes} : Reached ok s → ok s e → Step c s e s' → Reached ok s'

variable {c}

theorem Reached.mono {ok ok' : System Bytes → Event Bytes → Prop} (hok : ∀ s e, ok s e → ok' s e)
    {s : System Bytes} (h : Reached c ok s) : Reached c ok' s := by
  induction h with
  | opened => exact .opened
  | step _ hmeets hstep ih => exact ih.step (hok _ _ hmeets) hstep

/-- The lock holder can take any number of its steps. -/
theorem Reached.ops {ok : System Bytes → Event Bytes → Prop} (hok : ∀ s, ok s .op) {s : System Bytes}
    (h : Reached c ok s) (n : Nat) :
    Reached c ok { s with disk := s.disk.run (s.todo.take n), todo := s.todo.drop n } := by
  induction n generalizing s with
  | zero => exact h
  | succ n ih =>
    cases htodo : s.todo with
    | nil =>
      have heq : ({ s with disk := s.disk.run (([] : List (StoreOp Bytes)).take (n + 1)), todo := ([] : List (StoreOp Bytes)).drop (n + 1) } : System Bytes) = s := by
        cases s
        cases htodo
        rfl
      rw [heq]
      exact h
    | cons op rest => exact ih (h.step (hok s) (.op htodo))

/-- The lock holder can finish. -/
theorem Reached.finish {ok : System Bytes → Event Bytes → Prop} (hok : ∀ s, ok s .op) {s : System Bytes}
    (h : Reached c ok s) : Reached c ok { s with disk := s.disk.run s.todo, todo := [] } := by
  have hops := h.ops hok s.todo.length
  rwa [List.take_length, List.drop_length] at hops

/-- A whole put from a state in which no run holds the lock. -/
theorem Reached.put {ok : System Bytes → Event Bytes → Prop} (hok : ∀ s, ok s .op) {s : System Bytes}
    (h : Reached c ok s) (hfree : s.todo = []) {put : PutCall} (hput : ok s (.put_graph put)) :
    Reached c ok ⟨s.disk.run (put_log c s.disk.files put), [], put :: s.puts⟩ :=
  (h.step hput (.put_graph put hfree)).finish hok

/-! ### Contents involved -/

/-- The keys and objects of the calls. -/
def involved (c : Codec Bytes) (puts : List PutCall) : Set Bytes :=
  {b | ∃ put ∈ puts, b = c.as_bytes put.key ∨ b ∈ put.objects c}

omit [Inhabited Bytes] in
theorem known_involved (puts : List PutCall) : Known c (involved c puts) puts := by
  intro put hput
  exact ⟨⟨put, hput, .inl rfl⟩, fun o ho => ⟨put, hput, .inr ho⟩⟩

/-- Earlier calls stay known. -/
theorem Step.known {U : Set Bytes} {s s' : System Bytes} {e : Event Bytes} (hstep : Step c s e s')
    (h : Known c U s'.puts) : Known c U s.puts := by
  cases hstep with
  | put_graph put _ => exact fun put' hput' => h put' (List.mem_cons_of_mem put hput')
  | prune_graphs_except | prune | op | kill | power_loss => exact h

omit [Inhabited Bytes] in
theorem inv_opened (U : Set Bytes) : Inv c U [] (opened : System Bytes).disk where
  refs name x _ hx := by
    cases List.mem_singleton.mp hx
  objects head rest x _ hx := by
    cases List.mem_singleton.mp hx
  roots e hup w hw := by
    rw [List.mem_singleton.mp hw, opened]
    simp only [hup, Option.isNone_none]

end System

end cgx.store
