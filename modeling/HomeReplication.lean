import HomeReplication.Bytes
import HomeReplication.FreePbaRecord
import HomeReplication.LogStore
import HomeReplication.StateMachineStore
import HomeReplication.Journal
import HomeReplication.Flush
import HomeReplication.History
