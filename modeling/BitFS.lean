import BitFS.Bencode.Accessors
import BitFS.Tree.Calls
import BitFS.Tree.Kinds
import BitFS.Read.FileIndex
import BitFS.Mount.Session
import BitFS.Bitfs.Attributes
import BitFS.Bitfs.Progress
import BitFS.Read.Cached
import BitFS.Read.Count
import BitFS.Read.Failure
import BitFS.Read.Quota
import BitFS.Client.Ends
import BitFS.Client.GetBlock
import BitFS.Client.Handshake
import BitFS.Client.Numbers
import BitFS.Client.PeerList
import BitFS.Client.Reassembly
import BitFS.Client.Requests
import BitFS.Client.Run
import BitFS.Client.Strings
