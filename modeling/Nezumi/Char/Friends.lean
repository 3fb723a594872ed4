import Nezumi.Lib.HoareSort
import Nezumi.Lib.Scanf
import Nezumi.Lib.SwapRemove
import Nezumi.Char.Server
import Nezumi.Common.Text
import Nezumi.Script.MapregLemmas

/-!
# Friends on the char-server (`char/char.c`, text-file build)

A character and its friends are in each other's lists. The lists are kept in a file of their own, by
the ids of the characters.

* `friendAdded` and `friendDeleted` are `0x2b24` and `0x2b23`. The second component says that
  `friends_txt_flag` has been set.
* `mmoFriendSync` writes the file and `parseFriendTxt` reads it, in either of its two layouts.
* `mmoCharSync` saves all characters, and `mmoCharInit` is what a server that starts has read. Of
  the characters' file only the records and the next id are kept here.
* `friendStep` is an event.
-/

namespace Nezumi

open Decimal Scanf

def maxFriends : Nat := 40

/-! ## The lists -/

/-- The entry for a character. -/
def friendOf (c : CharStatus) : Friend := ⟨c.accountId, c.charId, c.name⟩

/-- The first entry of a character is taken off, and the last one moves there. -/
def dropFriend (l : List Friend) (charId : Int) : List Friend :=
  match l.findIdx? fun f => f.charId = charId with
  | none => l
  | some j => Unordered.swapRemove l j

/-- What `0x2b23` does to the list at an index. -/
def friendsAfter (s : CharServer) (charId friendCharId : Int) (i : Nat) : List Friend :=
  let l := if (s.charDat i).charId = charId then dropFriend (s.friendDat i) friendCharId
    else s.friendDat i
  if (s.charDat i).charId = friendCharId then dropFriend l charId else l

/-- `0x2b23` -/
def friendDeleted (s : CharServer) (charId friendCharId : Int) : CharServer × Bool :=
  ({ s with friendDat := fun i =>
      if i < s.charNum then friendsAfter s charId friendCharId i else s.friendDat i },
    (List.range s.charNum).any fun i =>
      (friendsAfter s charId friendCharId i).length < (s.friendDat i).length)

/-- The search of `0x2b24` for two characters, in the order of the table. It stops where the second
one is found. -/
def friendIndexes (s : CharServer) (charId1 charId2 : Int) :
    List Nat → Option Nat → Option Nat → Option (Nat × Nat)
  | [], _, _ => none
  | i :: is, index1, index2 =>
    match (if (s.charDat i).charId = charId1 then index2 else none) with
    | some j => some (i, j)
    | none =>
      let index1 := if (s.charDat i).charId = charId1 then some i else index1
      match (if (s.charDat i).charId = charId2 then index1 else none) with
      | some j => some (j, i)
      | none =>
        friendIndexes s charId1 charId2 is index1
          (if (s.charDat i).charId = charId2 then some i else index2)

/-- `0x2b24` -/
def friendAdded (s : CharServer) (charId1 charId2 : Int) : CharServer × Bool :=
  match friendIndexes s charId1 charId2 (List.range s.charNum) none none with
  | none => (s, false)
  | some (index1, index2) =>
    if (s.friendDat index1).length < maxFriends ∧ (s.friendDat index2).length < maxFriends then
      let dat := Function.update s.friendDat index1
        (s.friendDat index1 ++ [friendOf (s.charDat index2)])
      let dat := Function.update dat index2 (dat index2 ++ [friendOf (s.charDat index1)])
      ({ s with friendDat := dat }, true)
    else (s, false)

/-! ## The file -/

/-- The bytes of a text of the program. -/
def asciiBytes (s : String) : List UInt8 := s.toList.map fun c => UInt8.ofNat c.toNat

/-- `tri_rapide_char_id`, of all indexes -/
def triRapideCharId (s : CharServer) : List Nat :=
  if 1 < s.charNum then
    HoareSort.sort (fun i j => (s.charDat i).charId < (s.charDat j).charId)
      (fun i j => (s.charDat j).charId < (s.charDat i).charId) s.charNum (List.range s.charNum) 0
      (s.charNum - 1)
  else List.range s.charNum

/-- The lines before the lists. -/
def friendsHeader : List (List UInt8) :=
  [asciiBytes "// Friends file",
    asciiBytes "// Structure:",
    asciiBytes "// char_id<tab>friend1_id,friend2_id...",
    [],
    asciiBytes "// Set if check of 'a friend must be friend of its friend' is already done",
    asciiBytes "friend_of_friend_checked: 1",
    []]

/-- The ids of a list. -/
def friendIds (l : List Friend) : List Int := l.map Friend.charId

/-- The line of a character who has friends. -/
def friendLine (s : CharServer) (i : Nat) : Option (List UInt8) :=
  if s.friendDat i = [] then none
  else some (ofInt (s.charDat i).charId ++ 9 :: printInts (friendIds (s.friendDat i)))

/-- What `mmo_friend_sync` writes. -/
def mmoFriendSync (s : CharServer) : List UInt8 :=
  (friendsHeader ++ (triRapideCharId s).filterMap (friendLine s)).flatMap fun l => l ++ [10]

/-- `atoi` -/
def atoi (bs : List UInt8) : Int :=
  match scanInt bs with
  | none => 0
  | some (z, _) => (toInt32 z).toInt

/-- What has been read: `already_checked`, `friends_txt_flag` and the lists. -/
structure FriendsRead where
  checked : Bool := false
  changed : Bool := false
  friendDat : Nat → List Friend := fun _ => []

/-- A friend of a list is read. It must be another character of the table, and not in the list. -/
def readFriend (s : CharServer) (charId friendId : Int) (r : List Friend × Bool) :
    List Friend × Bool :=
  if r.1.any (fun f => f.charId = friendId) ∨ charId = friendId then (r.1, true)
  else
    match charIndex s fun c => c.charId = friendId with
    | none => r
    | some k => (r.1 ++ [{ friendOf (s.charDat k) with charId := friendId }], r.2)

/-- A list in the old layout, with names. -/
def readNamed (s : CharServer) (charId : Int) :
    Nat → List UInt8 → List Friend × Bool → List Friend × Bool
  | 0, _, r => r
  | n + 1, text, r =>
    if text = [] ∨ maxFriends ≤ r.1.length then r
    else
      match sscanf [.lit 44, .int, .lit 44, .upto 44] text with
      | ([.int friendId, .text _], some rest) =>
        readNamed s charId n rest (readFriend s charId friendId.toInt r)
      | _ => r

/-- A list in the new layout. -/
def readIds (s : CharServer) (charId : Int) :
    Nat → List UInt8 → List Friend × Bool → List Friend × Bool
  | 0, _, r => r
  | n + 1, text, r =>
    if text = [] ∨ maxFriends ≤ r.1.length then r
    else
      match sscanf [.upto 44] text.tail with
      | ([.text temp], some rest) => readIds s charId n rest (readFriend s charId (atoi temp) r)
      | _ => r

/-- The value of a line `friend_of_friend_checked`. -/
def checkedValue (line : List UInt8) : Option Int :=
  match sscanf [.upto 58, .lit 58] line with
  | (.text temp :: _, rest) =>
    if temp.map tolower = asciiBytes "friend_of_friend_checked" then some (atoi (rest.getD []))
    else none
  | _ => none

/-- A line of `parse_friend_txt`. A list has fewer entries than its line has bytes. -/
def parseFriendLine (s : CharServer) (r : FriendsRead) (line : List UInt8) : FriendsRead :=
  if line.take 2 = [47, 47] ∨ line = [] ∨ line.head? = some 10 ∨ line.head? = some 13 then r
  else
    let line := trimEnd line
    match (if r.checked then none else checkedValue line) with
    | some v => if v = 1 then { r with checked := true } else r
    | none =>
      match sscanf [.int] line with
      | ([.int charId], some rest) =>
        match charIndex s fun c => c.charId = charId.toInt with
        | none => r
        | some i =>
          let l := if rest.head? = some 9 then
              readIds s charId.toInt rest.length rest ([], r.changed)
            else readNamed s charId.toInt rest.length rest ([], r.changed)
          { r with changed := l.2, friendDat := Function.update r.friendDat i l.1 }
      | _ => r

/-- Character `i` is entered in the list of a friend that does not have it. -/
def befriend (s : CharServer) (i : Nat) (r : FriendsRead) (friendId : Int) : FriendsRead :=
  match charIndex s fun c => c.charId = friendId with
  | none => r
  | some k =>
    if (r.friendDat k).any (fun f => f.charId = (s.charDat i).charId) ∨
      maxFriends ≤ (r.friendDat k).length then r
    else
      { r with
        changed := true
        friendDat := Function.update r.friendDat k (r.friendDat k ++ [friendOf (s.charDat i)]) }

/-- The check of the friends of friends. The list of a character stays while it is checked, for the
character is not in it. -/
def checkFriends (s : CharServer) (r : FriendsRead) : FriendsRead :=
  (List.range s.charNum).foldl (fun r i => (friendIds (r.friendDat i)).foldl (befriend s i) r) r

/-- `parse_friend_txt`. Without a file there are no friends. -/
def parseFriendTxt (s : CharServer) (file : Option (List UInt8)) : FriendsRead :=
  match file with
  | none => {}
  | some file =>
    let r := (linesOfFile file).foldl (parseFriendLine s) {}
    if r.checked then r else checkFriends s r

/-! ## The server and its files -/

/-- `tri_rapide`, of all indexes: by account, and then by slot. -/
def triRapide (s : CharServer) : List Nat :=
  let below (i j : Nat) : Bool := (s.charDat i).accountId < (s.charDat j).accountId ||
    ((s.charDat i).accountId = (s.charDat j).accountId &&
      (s.charDat i).charNum < (s.charDat j).charNum)
  if 1 < s.charNum then
    HoareSort.sort below (fun i j => below j i) s.charNum (List.range s.charNum) 0 (s.charNum - 1)
  else List.range s.charNum

/-- The server, `friends_txt_flag`, and the files: the records of the characters with the next id,
and the friends. -/
structure FriendWorld where
  server : CharServer := {}
  changed : Bool := false
  charTxt : List CharStatus := []
  newid : Int := 0
  friendsTxt : Option (List UInt8) := none

/-- `mmo_char_sync` -/
def mmoCharSync (w : FriendWorld) : FriendWorld :=
  { w with
    charTxt := (triRapide w.server).map w.server.charDat
    newid := w.server.charIdCount
    friendsTxt := if w.changed then some (mmoFriendSync w.server) else w.friendsTxt
    changed := false }

/-- The table that `mmo_char_init` has read. -/
def readChars (charTxt : List CharStatus) (newid : Int) : CharServer where
  charNum := charTxt.length
  charDat i := charTxt.getD i {}
  charIdCount := charTxt.foldl (fun n c => max n (c.charId + 1)) (max 500000 newid)

/-- The server starts. -/
def mmoCharInit (w : FriendWorld) : FriendWorld :=
  let s := readChars w.charTxt w.newid
  let r := parseFriendTxt s w.friendsTxt
  { w with server := { s with friendDat := r.friendDat }, changed := r.changed }

/-- What happens. `delete` is `0x68`: the session of a connection deletes the character at a place,
which is at an index of the table. -/
inductive FriendEvent where
  | add (charId1 charId2 : Int)
  | remove (charId friendCharId : Int)
  | delete (fd : Fin fdSetsize) (place : Fin 9) (i : Nat)
  | save
  | load

def friendStep (w : FriendWorld) : FriendEvent → FriendWorld
  | .add charId1 charId2 =>
    let r := friendAdded w.server charId1 charId2
    { w with server := r.1, changed := w.changed || r.2 }
  | .remove charId friendCharId =>
    let r := friendDeleted w.server charId friendCharId
    { w with server := r.1, changed := w.changed || r.2 }
  | .delete fd place i =>
    if i < w.server.charNum then { w with server := deleteFound w.server fd place i } else w
  | .save => mmoCharSync w
  | .load => mmoCharInit w

end Nezumi
