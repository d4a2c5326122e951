import Mathlib.Data.Int.Bitwise
import Mathlib.Data.List.Induction
import Mathlib.Data.List.Nodup
import Mathlib.Data.List.Perm.Basic
import Mathlib.Logic.Function.Basic

/-!
The code generator (`proto/gen_proto/gen_pb.py`): from the protocol modules under `protos/`
to the files that register their messages.

`gen_cpp_py` writes three files for a module: the C++ of its client and of its server, named
after the module, and `gen_service.py`, which is one for all. What a file contains is here
the list of its calls of `regist`, as the templates `cpp_template.cpp` and `py_template.py`
write them.

`genFiles_at` says what each file contains in the end, and `registered_iff` when every
message of the server is registered once and in its place.
-/

namespace MixServer

/-! ### Protocol modules -/

/-- `SERVER` of `protos/types.py`. -/
def SERVER : Int := 0x1

/-- `CLIENT`. -/
def CLIENT : Int := 0x2

/-- `PY`. -/
def PY : Int := 0x1

/-- `CPP`. -/
def CPP : Int := 0x2

/-- A dictionary with a `cmd_id`. -/
structure ProtoMessage where
  cmdId : Int
  side : Int
  handle : Int
  mod : String
  func : String
deriving DecidableEq, Repr

/-- A value of a module's `__dict__`. -/
inductive ProtoMember where
  | message (m : ProtoMessage)
  /-- Not a dictionary, or one without a `cmd_id`. -/
  | other
deriving DecidableEq, Repr

/-- The messages among the members, with their names. -/
def messagesOf (members : List (String × ProtoMember)) : List (String × ProtoMessage) :=
  members.filterMap fun
    | (name, .message m) => some (name, m)
    | (_, .other) => none

/-- A file `protos/name.py`: its `SERVICE_ID` and its `__dict__`. The command ids of its
messages are distinct. -/
structure ProtoModule where
  name : String
  serviceId : Int
  dict : List (String × ProtoMember)
  cmdIds_nodup : ((messagesOf dict).map fun m => m.2.cmdId).Nodup

/-- The messages of the module, with their names. -/
def ProtoModule.messages (P : ProtoModule) : List (String × ProtoMessage) := messagesOf P.dict

/-! ### The generator -/

/-- `"py"` and `"cpp"`. -/
inductive HandleKind where
  | py
  | cpp
deriving DecidableEq, Repr

/-- `method`, as the templates see it. -/
structure GenMethod where
  name : String
  commandId : Int
  msgName : String
  side : Int
  handle : HandleKind
deriving DecidableEq, Repr

/-- `mod`, as the templates see it. -/
structure GenMod where
  name : String
  methods : List GenMethod
  serviceId : Int
  fileName : String
deriving DecidableEq, Repr

/-- A call of `regist` in a generated file. `fileName` is the module whose protobuf class it
names. -/
structure Registration where
  serviceId : Int
  commandId : Int
  fileName : String
  msgName : String
  mod : String
  func : String
deriving DecidableEq, Repr

/-- The generated files. -/
inductive GenPath where
  /-- `cpp/server/gen_name.cpp`. -/
  | cppServer (name : String)
  /-- `cpp/client/gen_name.cpp`. -/
  | cppClient (name : String)
  /-- `script/services/gen_service.py`. -/
  | pyService
deriving DecidableEq, Repr

/-- What the generated files contain; a file that was not written contains nothing. -/
abbrev GenFiles := GenPath → List Registration

namespace Generator

/-- `init_mod`. -/
def initMod (modName : String) (serviceId : Int) (fileName : String) : GenMod :=
  { name := modName, methods := [], serviceId := serviceId, fileName := fileName }

/-- The dictionary entry of a module name, made if there is none. -/
def ensureMod (mods : List GenMod) (modName : String) (P : ProtoModule) : List GenMod :=
  if modName ∈ mods.map GenMod.name then mods
  else mods ++ [initMod modName P.serviceId P.name]

/-- `mod['methods'].append(method)`, for the entry of a module name. -/
def appendMethod (mods : List GenMod) (modName : String) (method : GenMethod) : List GenMod :=
  mods.map fun mod =>
    if mod.name = modName then { mod with methods := mod.methods ++ [method] } else mod

/-- `method` of a message. -/
def toMethod (name : String) (m : ProtoMessage) : GenMethod :=
  { name := m.func
    commandId := m.cmdId
    msgName := name
    side := m.side
    handle := if m.handle = PY then .py else .cpp }

/-- One round of the loop over `proto_mod.__dict__`, on `client_mods` and `server_mods`. -/
def addMember (P : ProtoModule) (mods : List GenMod × List GenMod) :
    String × ProtoMember → List GenMod × List GenMod
  | (_, .other) => mods
  | (name, .message m) =>
      if m.cmdId ≠ 0 then
        let client := ensureMod mods.1 m.mod P
        let server := ensureMod mods.2 m.mod P
        let method := toMethod name m
        ( if m.side.land CLIENT ≠ 0 then appendMethod client m.mod method else client,
          if m.side.land SERVER ≠ 0 then appendMethod server m.mod method else server )
      else
        mods

/-- The loop. -/
def collect (P : ProtoModule) : List GenMod × List GenMod :=
  P.dict.foldl (addMember P) ([], [])

/-- The call for a method. -/
def callOf (mod : GenMod) (method : GenMethod) : Registration :=
  { serviceId := mod.serviceId
    commandId := method.commandId
    fileName := mod.fileName
    msgName := method.msgName
    mod := mod.name
    func := method.name }

/-- What a template writes: the calls for the methods of one kind. -/
def render (kind : HandleKind) (mods : List GenMod) : List Registration :=
  mods.flatMap fun mod => (mod.methods.filter (·.handle = kind)).map (callOf mod)

/-- `cpp_template.cpp`. -/
def cppTemplate : List GenMod → List Registration := render .cpp

/-- `py_template.py`. -/
def pyTemplate : List GenMod → List Registration := render .py

/-- `gen_cpp_py`. -/
def genCppPy (files : GenFiles) (P : ProtoModule) : GenFiles :=
  let mods := collect P
  let files := Function.update files (.cppClient P.name) (cppTemplate mods.1)
  let files := Function.update files (.cppServer P.name) (cppTemplate mods.2)
  Function.update files .pyService (pyTemplate mods.2)

/-- `gen_files`, for the modules in the order in which `os.walk` lists them. -/
def genFiles (Ps : List ProtoModule) : GenFiles := Ps.foldl genCppPy fun _ => []

/-! ### What one module registers -/

/-- The call that registers a message. -/
def registration (P : ProtoModule) (name : String) (m : ProtoMessage) : Registration :=
  { serviceId := P.serviceId
    commandId := m.cmdId
    fileName := P.name
    msgName := name
    mod := m.mod
    func := m.func }

/-- The messages that `gen_cpp_py` registers with the server, of one kind. -/
def served (kind : HandleKind) (m : String × ProtoMessage) : Bool :=
  m.2.cmdId ≠ 0 ∧ m.2.side.land SERVER ≠ 0 ∧ (toMethod m.1 m.2).handle = kind

/-- The entries are of `P`, one for each name. -/
structure Grouped (P : ProtoModule) (mods : List GenMod) : Prop where
  nodup : (mods.map GenMod.name).Nodup
  serviceId : ∀ mod ∈ mods, mod.serviceId = P.serviceId
  fileName : ∀ mod ∈ mods, mod.fileName = P.name

variable {P : ProtoModule} {mods : List GenMod} {modName : String} {kind : HandleKind}

theorem grouped_nil (P : ProtoModule) : Grouped P [] :=
  ⟨List.nodup_nil, by simp, by simp⟩

theorem Grouped.ensureMod (h : Grouped P mods) (kind : HandleKind) (modName : String) :
    Grouped P (ensureMod mods modName P) ∧
      modName ∈ (Generator.ensureMod mods modName P).map GenMod.name ∧
      render kind (Generator.ensureMod mods modName P) = render kind mods := by
  rw [Generator.ensureMod]
  split
  · rename_i hmem
    exact ⟨h, hmem, rfl⟩
  · rename_i hnew
    refine ⟨⟨?_, ?_, ?_⟩, ?_, ?_⟩
    · rw [List.map_append, List.nodup_append]
      refine ⟨h.nodup, by simp, ?_⟩
      intro a ha b hb
      obtain rfl := List.mem_singleton.mp hb
      rintro rfl
      exact hnew ha
    · intro mod hmod
      rcases List.mem_append.mp hmod with hold | hlast
      · exact h.serviceId mod hold
      · obtain rfl := List.mem_singleton.mp hlast
        rfl
    · intro mod hmod
      rcases List.mem_append.mp hmod with hold | hlast
      · exact h.fileName mod hold
      · obtain rfl := List.mem_singleton.mp hlast
        rfl
    · simp [initMod]
    · simp [render, initMod]

theorem name_appendMethod (method : GenMethod) :
    (appendMethod mods modName method).map GenMod.name = mods.map GenMod.name := by
  rw [appendMethod, List.map_map]
  apply List.map_congr_left
  intro mod _
  simp only [Function.comp_apply]
  split <;> rfl

theorem Grouped.appendMethod (h : Grouped P mods) (modName : String) (method : GenMethod) :
    Grouped P (appendMethod mods modName method) := by
  refine ⟨?_, ?_, ?_⟩
  · rw [name_appendMethod]
    exact h.nodup
  · intro mod hmod
    obtain ⟨mod', hmod', rfl⟩ := List.mem_map.mp hmod
    have hid := h.serviceId mod' hmod'
    split <;> exact hid
  · intro mod hmod
    obtain ⟨mod', hmod', rfl⟩ := List.mem_map.mp hmod
    have hid := h.fileName mod' hmod'
    split <;> exact hid

/-- A module name that is not there gets no method. -/
theorem appendMethod_of_notMem (h : modName ∉ mods.map GenMod.name) (method : GenMethod) :
    appendMethod mods modName method = mods := by
  rw [appendMethod]
  conv_rhs => rw [← List.map_id mods]
  apply List.map_congr_left
  intro mod hmod
  rw [if_neg]
  · rfl
  · rintro rfl
    exact h (List.mem_map_of_mem hmod)

/-- A method is written once, whichever the entry that it is appended to. -/
theorem render_appendMethod (h : Grouped P mods) (hmem : modName ∈ mods.map GenMod.name)
    (name : String) {m : ProtoMessage} (hmod : m.mod = modName) :
    (render kind (appendMethod mods modName (toMethod name m))).Perm
      (render kind mods ++ if (toMethod name m).handle = kind then [registration P name m]
        else []) := by
  induction mods with
  | nil => cases hmem
  | cons mod mods ih =>
    obtain ⟨hnotin, hnodup⟩ := List.nodup_cons.mp h.nodup
    have htail : Grouped P mods :=
      ⟨hnodup, fun mod' h' => h.serviceId mod' (List.mem_cons_of_mem _ h'),
        fun mod' h' => h.fileName mod' (List.mem_cons_of_mem _ h')⟩
    have hcons : ∀ mod mods, render kind (mod :: mods) =
        (mod.methods.filter (·.handle = kind)).map (callOf mod) ++ render kind mods :=
      fun _ _ => rfl
    have hfirst : ∀ mod mods, appendMethod (mod :: mods) modName (toMethod name m) =
        (if mod.name = modName then { mod with methods := mod.methods ++ [toMethod name m] }
          else mod) :: appendMethod mods modName (toMethod name m) :=
      fun _ _ => rfl
    by_cases hname : mod.name = modName
    · have hcall : callOf mod (toMethod name m) = registration P name m := by
        simp only [callOf, toMethod, registration, h.serviceId mod List.mem_cons_self,
          h.fileName mod List.mem_cons_self, hname, hmod]
      have hnew : ([toMethod name m].filter (·.handle = kind)).map (callOf mod) =
          if (toMethod name m).handle = kind then [registration P name m] else [] := by
        by_cases hkind : (toMethod name m).handle = kind
        · simp [hkind, hcall]
        · simp [hkind]
      rw [hfirst, if_pos hname, appendMethod_of_notMem (hname ▸ hnotin), hcons, hcons]
      simp only [List.filter_append, List.map_append]
      rw [← hnew, List.append_assoc, List.append_assoc]
      exact List.perm_append_comm.append_left _
    · have hmem' : modName ∈ mods.map GenMod.name := by
        rcases List.mem_cons.mp hmem with heq | hin
        · exact absurd heq.symm hname
        · exact hin
      rw [hfirst, if_neg hname, hcons, hcons, List.append_assoc]
      exact (ih htail hmem').append_left _

/-- One round of the loop. -/
theorem addMember_render (kind : HandleKind) {st : List GenMod × List GenMod}
    (h : Grouped P st.2) (member : String × ProtoMember) :
    Grouped P (addMember P st member).2 ∧
      (render kind (addMember P st member).2).Perm (render kind st.2 ++
        ((messagesOf [member]).filter (served kind)).map fun m => registration P m.1 m.2) := by
  obtain ⟨name, member⟩ := member
  cases member with
  | other =>
    refine ⟨h, ?_⟩
    simp [addMember, messagesOf]
  | message m =>
    obtain ⟨hgrouped, hmem, hsame⟩ := h.ensureMod kind m.mod
    have hone : messagesOf [(name, .message m)] = [(name, m)] := rfl
    simp only [addMember, hone]
    by_cases hcmd : m.cmdId ≠ 0
    · rw [if_pos hcmd]
      by_cases hside : m.side.land SERVER ≠ 0
      · simp only [if_pos hside]
        refine ⟨hgrouped.appendMethod _ _, ?_⟩
        refine (render_appendMethod hgrouped hmem name rfl).trans ?_
        rw [hsame]
        by_cases hkind : (toMethod name m).handle = kind
        · simp [served, hcmd, hside, hkind]
        · simp [served, hkind]
      · simp only [if_neg hside]
        refine ⟨hgrouped, ?_⟩
        rw [hsame]
        simp [served, not_not.mp hside]
    · rw [if_neg hcmd]
      refine ⟨h, ?_⟩
      simp [served, not_not.mp hcmd]

/-- What a template writes for a module: a call for each message that it serves. -/
theorem render_collect (P : ProtoModule) (kind : HandleKind) :
    (render kind (collect P).2).Perm
      ((P.messages.filter (served kind)).map fun m => registration P m.1 m.2) := by
  have hloop : ∀ (members : List (String × ProtoMember)) (st : List GenMod × List GenMod),
      Grouped P st.2 → (render kind (members.foldl (addMember P) st).2).Perm
        (render kind st.2 ++
          ((messagesOf members).filter (served kind)).map fun m => registration P m.1 m.2) := by
    intro members
    induction members with
    | nil =>
      intro st _
      simp [messagesOf]
    | cons member members ih =>
      intro st hst
      obtain ⟨hgrouped, hrender⟩ := addMember_render kind hst member
      have hmessages : messagesOf (member :: members) =
          messagesOf [member] ++ messagesOf members := by
        rw [messagesOf, messagesOf, messagesOf, ← List.filterMap_append]
        rfl
      rw [List.foldl_cons, hmessages, List.filter_append, List.map_append, ← List.append_assoc]
      exact (ih _ hgrouped).trans (hrender.append_right _)
  exact hloop P.dict ([], []) (grouped_nil P)

/-! ### One message -/

/-- The call registers the message with this id of this module. -/
def isOf (P : ProtoModule) (m : ProtoMessage) (r : Registration) : Bool :=
  r.fileName = P.name ∧ r.serviceId = P.serviceId ∧ r.commandId = m.cmdId

/-- Where the values of `f` are distinct, one element has the value that it has. -/
theorem filter_eq_singleton {α β : Type*} [DecidableEq β] {f : α → β} {l : List α}
    (h : (l.map f).Nodup) {a : α} (ha : a ∈ l) : (l.filter fun x => f x = f a) = [a] := by
  induction l with
  | nil => cases ha
  | cons b l ih =>
    obtain ⟨hnotin, hnodup⟩ := List.nodup_cons.mp h
    rcases List.mem_cons.mp ha with rfl | hmem
    · rw [List.filter_cons_of_pos (by simp), List.filter_eq_nil_iff.mpr]
      intro x hx heq
      have hfx : f x = f a := by simpa using heq
      exact hnotin (hfx ▸ List.mem_map_of_mem hx)
    · rw [List.filter_cons_of_neg, ih hnodup hmem]
      intro heq
      have hfb : f b = f a := by simpa using heq
      exact hnotin (hfb ▸ List.mem_map_of_mem hmem)

variable {x : String × ProtoMessage}

/-- A module's own file has the call for a message of its if it serves it. -/
theorem filter_render_self (hx : x ∈ P.messages) :
    (render kind (collect P).2).filter (isOf P x.2) =
      if served kind x then [registration P x.1 x.2] else [] := by
  have hperm := (render_collect P kind).filter (isOf P x.2)
  have hsame : (isOf P x.2 ∘ fun m : String × ProtoMessage => registration P m.1 m.2) =
      fun m => decide (m.2.cmdId = x.2.cmdId) := by
    funext m
    simp [isOf, registration]
  have hone : (P.messages.filter fun m => m.2.cmdId = x.2.cmdId) = [x] :=
    filter_eq_singleton P.cmdIds_nodup hx
  rw [List.filter_map, hsame, List.filter_comm, hone] at hperm
  by_cases hserved : served kind x
  · rw [if_pos hserved]
    simpa [hserved] using hperm
  · rw [if_neg hserved]
    simpa [hserved] using hperm

/-- Another module's file has none. -/
theorem filter_render_other {Q : ProtoModule} (hname : Q.name ≠ P.name) (m : ProtoMessage) :
    (render kind (collect Q).2).filter (isOf P m) = [] := by
  rw [List.filter_eq_nil_iff]
  intro r hr hof
  obtain ⟨y, -, rfl⟩ := List.mem_map.mp ((render_collect Q kind).mem_iff.mp hr)
  have hsame : Q.name = P.name ∧ Q.serviceId = P.serviceId ∧ y.2.cmdId = m.cmdId :=
    of_decide_eq_true hof
  exact hname hsame.1

end Generator

/-! ### All modules -/

/-- The modules under `protos/`, in the order in which `os.walk` lists their files. -/
structure Protos where
  modules : List ProtoModule
  names_nodup : (modules.map ProtoModule.name).Nodup

namespace Generator

theorem genFiles_snoc (Ps : List ProtoModule) (P : ProtoModule) :
    genFiles (Ps ++ [P]) = genCppPy (genFiles Ps) P := by
  rw [genFiles, List.foldl_append]
  rfl

theorem genFiles_cppServer {Ps : List ProtoModule} (h : (Ps.map ProtoModule.name).Nodup)
    {P : ProtoModule} (hP : P ∈ Ps) :
    genFiles Ps (.cppServer P.name) = cppTemplate (collect P).2 := by
  induction Ps using List.reverseRecOn with
  | nil => cases hP
  | append_singleton Ps Q ih =>
    rw [List.map_append, List.nodup_append] at h
    rw [genFiles_snoc, genCppPy]
    rcases List.mem_append.mp hP with hold | hlast
    · have hne : P.name ≠ Q.name :=
        h.2.2 _ (List.mem_map_of_mem hold) _ (List.mem_singleton_self _)
      simp [Function.update, hne, ih h.1 hold]
    · obtain rfl := List.mem_singleton.mp hlast
      simp [Function.update]

theorem genFiles_cppServer_other {Ps : List ProtoModule} {name : String}
    (hname : name ∉ Ps.map ProtoModule.name) : genFiles Ps (.cppServer name) = [] := by
  induction Ps using List.reverseRecOn with
  | nil => rfl
  | append_singleton Ps Q ih =>
    rw [List.map_append, List.mem_append, not_or] at hname
    have hne : name ≠ Q.name := fun heq => hname.2 (by simp [heq])
    rw [genFiles_snoc, genCppPy]
    simp [Function.update, hne, ih hname.1]

/-- `gen_service.py` is the one of the module that was generated last. -/
theorem genFiles_pyService (Ps : List ProtoModule) :
    genFiles Ps .pyService = (Ps.getLast?.map fun P => pyTemplate (collect P).2).getD [] := by
  induction Ps using List.reverseRecOn with
  | nil => rfl
  | append_singleton Ps Q _ =>
    rw [genFiles_snoc, genCppPy]
    simp

/-- A file of the server. -/
def IsServer : GenPath → Prop
  | .cppServer _ | .pyService => True
  | .cppClient _ => False

/-- The message is registered in one file of the server, once, and in no other: in the C++ of
its module, or in `gen_service.py`. -/
def RegisteredOnce (files : GenFiles) (P : ProtoModule) (x : String × ProtoMessage) : Prop :=
  ∃ path, IsServer path ∧ (x.2.handle = CPP → path = .cppServer P.name) ∧
    (x.2.handle = PY → path = .pyService) ∧
    ∀ p, IsServer p → (files p).filter (isOf P x.2) =
      if p = path then [registration P x.1 x.2] else []

variable {protos : Protos} {P : ProtoModule} {x : String × ProtoMessage}

theorem filter_cppServer (hP : P ∈ protos.modules) (hx : x ∈ P.messages) (name : String) :
    (genFiles protos.modules (.cppServer name)).filter (isOf P x.2) =
      if name = P.name ∧ served .cpp x then [registration P x.1 x.2] else [] := by
  by_cases hname : name = P.name
  · subst hname
    rw [genFiles_cppServer protos.names_nodup hP, cppTemplate, filter_render_self hx]
    simp
  · rw [if_neg (fun h => hname h.1)]
    by_cases hmem : name ∈ protos.modules.map ProtoModule.name
    · obtain ⟨Q, hQ, rfl⟩ := List.mem_map.mp hmem
      rw [genFiles_cppServer protos.names_nodup hQ]
      exact filter_render_other hname x.2
    · rw [genFiles_cppServer_other hmem, List.filter_nil]

theorem filter_pyService_last (hlast : protos.modules.getLast? = some P) (hx : x ∈ P.messages) :
    (genFiles protos.modules .pyService).filter (isOf P x.2) =
      if served .py x then [registration P x.1 x.2] else [] := by
  rw [genFiles_pyService, hlast]
  exact filter_render_self hx

theorem filter_pyService_other (hP : P ∈ protos.modules)
    (hlast : protos.modules.getLast? ≠ some P) (m : ProtoMessage) :
    (genFiles protos.modules .pyService).filter (isOf P m) = [] := by
  rw [genFiles_pyService]
  cases hQ : protos.modules.getLast? with
  | none => rfl
  | some Q =>
    have hmem : Q ∈ protos.modules := List.mem_of_getLast? hQ
    refine filter_render_other ?_ m
    intro hname
    obtain rfl := List.inj_on_of_nodup_map protos.names_nodup hmem hP hname
    exact hlast hQ

theorem served_iff {kind : HandleKind} (hside : x.2.side.land SERVER ≠ 0) :
    served kind x = true ↔
      x.2.cmdId ≠ 0 ∧ (if x.2.handle = PY then HandleKind.py else .cpp) = kind := by
  simp [served, hside, toMethod]

/-- The message has an id that counts as true, and if Python handles it, its module is generated
last. -/
def Reached (protos : Protos) (P : ProtoModule) (m : ProtoMessage) : Prop :=
  m.cmdId ≠ 0 ∧ (m.handle = PY → protos.modules.getLast? = some P)

theorem registeredOnce_of_reached (hP : P ∈ protos.modules) (hx : x ∈ P.messages)
    (hside : x.2.side.land SERVER ≠ 0) (h : Reached protos P x.2) :
    RegisteredOnce (genFiles protos.modules) P x := by
  obtain ⟨hcmd, hlast⟩ := h
  by_cases hpy : x.2.handle = PY
  · have hserved : served .py x = true := (served_iff hside).mpr ⟨hcmd, if_pos hpy⟩
    have hnot : ¬ served .cpp x = true := by simp [served_iff hside, hpy]
    refine ⟨.pyService, trivial, ?_, fun _ => rfl, ?_⟩
    · intro hcpp
      cases hpy.symm.trans hcpp
    · intro p hp
      cases p with
      | cppServer name => simp [filter_cppServer hP hx, hnot]
      | cppClient name => cases hp
      | pyService => simp [filter_pyService_last (hlast hpy) hx, hserved]
  · have hserved : served .cpp x = true := (served_iff hside).mpr ⟨hcmd, if_neg hpy⟩
    have hnot : ¬ served .py x = true := by simp [served_iff hside, hpy]
    refine ⟨.cppServer P.name, trivial, fun _ => rfl, fun h => absurd h hpy, ?_⟩
    intro p hp
    cases p with
    | cppServer name => simp [filter_cppServer hP hx, hserved]
    | cppClient name => cases hp
    | pyService =>
      by_cases hlast' : protos.modules.getLast? = some P
      · simp [filter_pyService_last hlast' hx, hnot]
      · simp [filter_pyService_other hP hlast']

theorem reached_of_registeredOnce (hP : P ∈ protos.modules) (hx : x ∈ P.messages)
    (hside : x.2.side.land SERVER ≠ 0) (h : RegisteredOnce (genFiles protos.modules) P x) :
    Reached protos P x.2 := by
  obtain ⟨path, hserver, -, hpy, hfiles⟩ := h
  have hself := hfiles path hserver
  rw [if_pos rfl] at hself
  cases path with
  | cppClient name => cases hserver
  | cppServer name =>
    rw [filter_cppServer hP hx] at hself
    split at hself
    · rename_i hserved
      refine ⟨((served_iff hside).mp hserved.2).1, ?_⟩
      intro hhandle
      cases hpy hhandle
    · cases hself
  | pyService =>
    by_cases hlast : protos.modules.getLast? = some P
    · rw [filter_pyService_last hlast hx] at hself
      split at hself
      · rename_i hserved
        exact ⟨((served_iff hside).mp hserved).1, fun _ => hlast⟩
      · cases hself
    · rw [filter_pyService_other hP hlast] at hself
      cases hself

/-- After `gen_files` every message of the server is registered once, in its place. -/
def Complete (protos : Protos) : Prop :=
  ∀ P ∈ protos.modules, ∀ x ∈ P.messages, x.2.side.land SERVER ≠ 0 →
    RegisteredOnce (genFiles protos.modules) P x

/-- **The generator registers every server message**, in any set of modules, if and only if each
has an id other than zero and those that Python handles are all in the module that is generated
last. -/
theorem registered_iff (protos : Protos) :
    Complete protos ↔ ∀ P ∈ protos.modules, ∀ x ∈ P.messages, x.2.side.land SERVER ≠ 0 →
      Reached protos P x.2 := by
  constructor
  · intro h P hP x hx hside
    exact reached_of_registeredOnce hP hx hside (h P hP x hx hside)
  · intro h P hP x hx hside
    exact registeredOnce_of_reached hP hx hside (h P hP x hx hside)

/-- A module `protos/name.py` with one message, which Python handles in the server. -/
def echoModule (name : String) : ProtoModule where
  name := name
  serviceId := 1000
  dict := [("Echo", .message ⟨1, SERVER, PY, "Test", "on_echo"⟩)]
  cmdIds_nodup := by simp [messagesOf]

/-- Two modules with a message for Python each: `gen_service.py` has only the second. -/
theorem registered_two : ¬ ∀ protos : Protos, Complete protos := by
  intro h
  let protos : Protos :=
    { modules := [echoModule "chat", echoModule "test"]
      names_nodup := by decide }
  have hserver : (0x1 : Int).land SERVER ≠ 0 := by decide
  have hlast : protos.modules.getLast? = some (echoModule "chat") :=
    (reached_of_registeredOnce List.mem_cons_self List.mem_cons_self hserver
      (h protos _ List.mem_cons_self _ List.mem_cons_self hserver)).2 rfl
  have hname : "test" = "chat" := congrArg ProtoModule.name (Option.some.inj hlast)
  revert hname
  decide

end Generator

end MixServer
