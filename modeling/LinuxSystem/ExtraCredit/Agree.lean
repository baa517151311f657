import LinuxSystem.Base.Machine
import LinuxSystem.ExtraCredit.Model
import LinuxSystem.Map.ReadYourWrite

/-!
# The two maps agree while nothing expires

Forgetting the readings turns the extra-credit map into the plain one. As long
as every `get` finds no expired key, each call gives the reply of its plain
counterpart and leaves the same slots.
-/

namespace LinuxSystem.ExtraCredit

open Probing Map Machine

variable {c : Config}

/-- The same size, and the same key, value and tombstone in every slot. -/
structure Same (map : Hashmap c) (other : Map.Hashmap c) : Prop where
  size : map.size = other.size
  nodes : ∀ i, (map.nodes i).key = (other.nodes i).key ∧ (map.nodes i).val = (other.nodes i).val ∧
    (map.nodes i).tombstone = (other.nodes i).tombstone

/-- No slot with a key is expired at any reading of the `get`. -/
def Quiet (map : Hashmap c) (clock : Nat → Nat) : Prop :=
  ∀ i < c.capacity, ∀ j, (map.nodes j).key.keyBase ≠ 0 →
    expired (clock i) (map.nodes j).start = false

/-- The calls of a run in which no `get` finds an expired key, the one inside
`delete` included. -/
def NothingExpires (map : Hashmap c) : Call → Prop
  | .get key clock => key.keyBase ≠ 0 → Quiet map clock
  | .delete key clock => key.keyBase ≠ 0 → Quiet map clock
  | _ => True

/-- The map without its readings. -/
def Hashmap.plain (map : Hashmap c) : Map.Hashmap c :=
  ⟨map.size, fun i => (map.nodes i).plain, map.invalid⟩

@[simp] theorem plain_size (map : Hashmap c) : map.plain.size = map.size := rfl

@[simp] theorem plain_invalid (map : Hashmap c) : map.plain.invalid = map.invalid := rfl

@[simp] theorem plain_nodes (map : Hashmap c) (i : Fin c.capacity) :
    map.plain.nodes i = (map.nodes i).plain := rfl

@[simp] theorem plain_key (tmp : MapNode) : tmp.plain.key = tmp.key := rfl

@[simp] theorem plain_val (tmp : MapNode) : tmp.plain.val = tmp.val := rfl

@[simp] theorem plain_tombstone (tmp : MapNode) : tmp.plain.tombstone = tmp.tombstone := rfl

theorem plain_same (map : Hashmap c) : Same map map.plain := ⟨rfl, fun _ => ⟨rfl, rfl, rfl⟩⟩

theorem plain_update (nodes : Fin c.capacity → MapNode) (i : Fin c.capacity) (node : MapNode) :
    (fun j => (Function.update nodes i node j).plain) =
      Function.update (fun j => (nodes j).plain) i node.plain := by
  funext j
  by_cases eq : j = i
  · simp [eq]
  · simp [eq]

/-- The plain map given the same calls. -/
def plainAct (map : Map.Hashmap c) (call : Call) : Option (Reply × Map.Hashmap c) :=
  Map.act map call.plain

/-! ## Each call -/

/-- The result of a call, without the readings of the map it leaves. -/
def forget : Reply × Hashmap c → Reply × Map.Hashmap c := Prod.map id Hashmap.plain

theorem putVisit_plain (map : Hashmap c) (key : MapKey) (val : MapVal) (clock : Nat)
    (i : Fin c.capacity) :
    (putVisit map.nodes key val clock i).map (fun nodes i => (nodes i).plain) =
      Map.putVisit map.plain.nodes key val i := by
  unfold putVisit Map.putVisit
  by_cases reusable : (map.nodes i).key.keyBase = 0 ∨ (map.nodes i).tombstone = true
  · simp only [plain_nodes, plain_key, plain_tombstone, reusable, ↓reduceIte]
    exact congrArg some (plain_update _ _ _)
  by_cases same : sameKey key (map.nodes i).key = true
  · simp only [plain_nodes, plain_key, plain_tombstone, reusable, same, ↓reduceIte]
    exact congrArg some (plain_update _ _ _)
  · simp only [plain_nodes, plain_key, plain_tombstone, reusable, same, ↓reduceIte]
    rfl

theorem put_plain (map : Hashmap c) (key : MapKey) (val : MapVal) (force : Bool) (clock : Nat) :
    (act map (.put key val force clock)).map forget =
      Map.act map.plain (.put key val force) := by
  unfold act Map.act put Map.put Map.putSection
  by_cases refused : map.invalid = true ∨ key.keyBase = 0 ∨ val.valBase = 0
  · simp only [plain_invalid, refused, ↓reduceIte]
    rfl
  by_cases full : c.capacity = map.size ∧ force = false
  · simp only [plain_invalid, plain_size, refused, full, ↓reduceIte]
    rfl
  by_cases room : map.size < c.capacity
  · have visits := funext (putVisit_plain map key val clock)
    simp only [plain_invalid, plain_size, refused, full, room, ↓reduceIte, ← visits, probe_map]
    cases probe (putVisit map.nodes key val clock) c.capacity (getIndex c key) <;> rfl
  · simp only [plain_invalid, plain_size, refused, full, room, ↓reduceIte]
    simp only [forget, Outcome.reply, Map.Outcome.reply, Hashmap.plain, Option.map_some,
      Prod.map_apply, plain_update]
    rfl

theorem getLoop_plain (map : Hashmap c) {clock : Nat → Nat} (quiet : Quiet map clock) (key : MapKey)
    {allowance i : Nat} (visits : i + allowance = c.capacity) (index : Fin c.capacity) :
    getLoop clock key allowance i index map.nodes =
      ((probe (Map.getVisit map.plain.nodes key) allowance index).getD .null, map.nodes) := by
  induction allowance generalizing i index with
  | zero => rfl
  | succ allowance ih =>
    have rest := ih (i := i + 1) (by omega) (next index)
    by_cases null : (map.nodes index).key.keyBase = 0
    · simp [getLoop, probe, Map.getVisit, null]
    have fresh := quiet i (by omega) index null
    by_cases buried : (map.nodes index).tombstone = true
    · simp [getLoop, probe, Map.getVisit, null, buried, bury_of_tombstone buried, rest]
    by_cases same : sameKey key (map.nodes index).key = true
    · simp [getLoop, probe, Map.getVisit, null, fresh, buried, same]
    · simp [getLoop, probe, Map.getVisit, null, fresh, buried, same, rest]

theorem get_plain {map : Hashmap c} {key : MapKey} {clock : Nat → Nat}
    (quiet : key.keyBase ≠ 0 → Quiet map clock) :
    get map key clock =
      ⟨(Map.get map.plain key).ret, (Map.get map.plain key).errno,
        (Map.get map.plain key).destroyed, map⟩ := by
  by_cases refused : map.invalid = true ∨ key.keyBase = 0
  · simp [get, Map.get, refused, Hashmap.refuse, Map.Hashmap.refuse]
  · have looked := getLoop_plain map (quiet fun null => refused (.inr null)) key
      (Nat.zero_add _) (getIndex c key)
    simp [get, Map.get, refused, looked, Map.getSection]

theorem getTrueIndex_plain (map : Hashmap c) (key : MapKey) :
    getTrueIndex map key = Map.getTrueIndex map.plain key := rfl

theorem deleteSection_plain (map : Hashmap c) (i : Fin c.capacity) :
    forget ((deleteSection map i).reply fun rtn => .node rtn.plain) =
      (Map.deleteSection map.plain i).reply .node := by
  simp only [forget, deleteSection, Map.deleteSection, Outcome.reply, Map.Outcome.reply,
    Hashmap.plain, Prod.map_apply, plain_update]
  rfl

theorem delete_plain {map : Hashmap c} {key : MapKey} {clock : Nat → Nat}
    (quiet : key.keyBase ≠ 0 → Quiet map clock) :
    forget ((delete map key clock).reply fun rtn => .node rtn.plain) =
      (Map.delete map.plain key).reply .node := by
  by_cases refused : map.invalid = true ∨ key.keyBase = 0
  · have refused' : Map.deleteRefuses map.plain key = true := by
      obtain invalid | null := refused
      · simp [Map.deleteRefuses, invalid]
      · simp [Map.deleteRefuses, null]
    simp only [delete, Map.delete, refused, refused', ↓reduceIte]
    rfl
  by_cases missing : (Map.get map.plain key).ret.valBase = 0
  · have refused' : Map.deleteRefuses map.plain key = true := by simp [Map.deleteRefuses, missing]
    simp only [delete, Map.delete, refused, get_plain quiet, missing, refused', ↓reduceIte]
    rfl
  · have carried : Map.deleteRefuses map.plain key = false := by
      rw [not_or] at refused
      simp [Map.deleteRefuses, missing, refused]
    simp only [delete, Map.delete, refused, get_plain quiet, missing, carried, ↓reduceIte,
      getTrueIndex_plain, Bool.false_eq_true]
    cases Map.getTrueIndex map.plain key with
    | none => rfl
    | some i => exact deleteSection_plain map i

theorem clearMap_plain (map : Hashmap c) :
    forget ((clearMap map).reply .flag) = (Map.clearMap map.plain).reply .flag := by
  have slots : (fun i => (clearNode (map.nodes i)).plain) =
      fun i => Map.clearNode (map.nodes i).plain := by
    funext i
    have same : Map.clears (map.nodes i).plain = clears (map.nodes i) := rfl
    unfold clearNode Map.clearNode
    rw [same]
    cases clears (map.nodes i) <;> rfl
  by_cases invalid : map.invalid = true
  · simp only [clearMap, Map.clearMap, plain_invalid, invalid, ↓reduceIte]
    rfl
  · simp only [clearMap, Map.clearMap, Map.clearSection, invalid,
      Bool.false_eq_true, ↓reduceIte, forget, Outcome.reply, Map.Outcome.reply, Hashmap.plain,
      Prod.map_apply, slots]
    rfl

theorem act_plain {map : Hashmap c} {call : Call} (quiet : NothingExpires map call) :
    (act map call).map forget = plainAct map.plain call := by
  cases call with
  | put key val force clock => exact put_plain map key val force clock
  | get key clock =>
    simp only [act, plainAct, Map.act, Call.plain, get_plain quiet, Option.map_some]
    simp only [forget, Outcome.reply, Map.Outcome.reply, Prod.map_apply, Map.get_self, id_eq]
  | delete key clock => exact congrArg some (delete_plain quiet)
  | clearMap => exact congrArg some (clearMap_plain map)

theorem act_agree {map : Hashmap c} {call : Call} (quiet : NothingExpires map call) :
    Agree (fun map other => map.plain = other) (act map call) (plainAct map.plain call) := by
  rw [← act_plain quiet]
  cases act map call with
  | none => exact .none
  | some _ => exact .some ⟨rfl, rfl⟩

/-- For every sequence of calls in which no `get` finds an expired key, the
extra-credit map replies at every step as the plain map does, and after every
step the two have the same size and the same slots. -/
theorem agrees_while_nothing_expires (calls : List Call)
    (quiet : Through act NothingExpires (createMap c) calls) :
    Option.Rel (List.Forall₂ (Alongside Same)) (trace act (createMap c) calls)
      (trace plainAct (Map.createMap c) calls) := by
  have agree (map : Hashmap c) (other : Map.Hashmap c) (call : Call) (eq : map.plain = other)
      (quiet : NothingExpires map call) :
      Agree (fun map other => map.plain = other) (act map call) (plainAct other call) := by
    subst eq
    exact act_agree quiet
  have traced := trace_agree agree (rfl : (createMap c).plain = Map.createMap c) quiet
  refine trace_imp (fun map other eq => ?_) traced
  subst eq
  exact plain_same map

theorem a_put_and_a_get_agree :
    Option.Rel (List.Forall₂ (Alongside Same))
      (trace act (createMap twoSlots) [.put ⟨1, [97]⟩ ⟨2, [1]⟩ false 7, .get ⟨3, [97]⟩ fun _ => 8])
      (trace plainAct (Map.createMap twoSlots)
        [.put ⟨1, [97]⟩ ⟨2, [1]⟩ false 7, .get ⟨3, [97]⟩ fun _ => 8]) := by
  apply agrees_while_nothing_expires
  refine ⟨trivial, ?_⟩
  rintro _ _ ⟨⟩
  refine ⟨fun _ => ?_, fun _ _ _ => trivial⟩
  unfold Quiet
  decide

end LinuxSystem.ExtraCredit
