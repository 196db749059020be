import TaggedOutline.Command.Console

/-!
# What a run comes to

A run goes from one state of the console to another, and gives a value or stops (`Run.exec`). The
parts of a command are run in turn until one of them stops.
-/

namespace TaggedOutline.Command.Run

variable {α β ε : Type} {m : Run α} {f : α → Run β} {c c' : Console} {a : α} {stop : Stop}

/-- The value of a run, or why it stops, and the console after it. -/
def exec (m : Run α) (c : Console) : Except Stop α × Console := m.run.run c

@[simp] theorem exec_pure (a : α) (c : Console) : exec (pure a) c = (.ok a, c) := rfl

@[simp] theorem exec_throw (stop : Stop) (c : Console) :
    exec (throw stop : Run α) c = (.error stop, c) := rfl

theorem exec_bind (m : Run α) (f : α → Run β) (c : Console) :
    exec (m >>= f) c =
      match exec m c with
      | (.ok a, c') => exec (f a) c'
      | (.error stop, c') => (.error stop, c') := by
  have hbind : exec (m >>= f) c = (ExceptT.bindCont f (exec m c).1).run (exec m c).2 := rfl
  rw [hbind]
  rcases exec m c with ⟨r, c'⟩
  cases r with
  | ok a => rfl
  | error stop => rfl

theorem exec_bind_of_ok (h : exec m c = (.ok a, c')) : exec (m >>= f) c = exec (f a) c' := by
  rw [exec_bind, h]

theorem exec_bind_of_error (h : exec m c = (.error stop, c')) :
    exec (m >>= f) c = (.error stop, c') := by
  rw [exec_bind, h]

@[simp] theorem exec_disk (c : Console) : exec disk c = (.ok c.disk, c) := rfl

@[simp] theorem exec_setDisk (d : Disk) (c : Console) :
    exec (setDisk d) c = (.ok (), { c with disk := d }) := rfl

@[simp] theorem exec_echo (t : Text) (c : Console) :
    exec (echo t) c = (.ok (), { c with echoed := c.echoed ++ [t] }) := rfl

@[simp] theorem exec_echoLine (t : Text) (c : Console) :
    exec (echoLine t) c = (.ok (), { c with echoed := c.echoed ++ [t ++ ['\n']] }) := rfl

/-- Lines that are echoed in turn are shown in turn. -/
theorem exec_forM_echoLine (xs : List α) (line : α → Text) (c : Console) :
    exec (xs.forM fun x => echoLine (line x)) c =
      (.ok (), { c with echoed := c.echoed ++ xs.map fun x => line x ++ ['\n'] }) := by
  induction xs generalizing c with
  | nil =>
    rw [List.map_nil, List.append_nil]
    rfl
  | cons x xs ih =>
    show exec (echoLine (line x) >>= fun _ => xs.forM fun x => echoLine (line x)) c = _
    rw [exec_bind_of_ok (exec_echoLine (line x) c), ih, List.map_cons, List.append_assoc,
      List.singleton_append]

@[simp] theorem exec_note (entries : List LogEntry) (c : Console) :
    exec (note entries) c = (.ok (), { c with log := c.log ++ entries }) := rfl

@[simp] theorem exec_orStop_ok (stop : ε → Stop) (a : α) (c : Console) :
    exec (orStop stop (.ok a)) c = (.ok a, c) := rfl

@[simp] theorem exec_orStop_error (stop : ε → Stop) (e : ε) (c : Console) :
    exec (orStop stop (.error e) : Run α) c = (.error (stop e), c) := rfl

end TaggedOutline.Command.Run
